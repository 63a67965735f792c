import CallByNeed.Expr.Debug
import CallByNeed.Proofs.Frames.Honest

/-! # The store of frames

A session is any sequence of frames that a host makes and evaluations that it starts, with honest
native methods. At any time of a session frames refer to earlier frames only, each kind of frame has
its shape, and what is stored stays as it is (`World.Attained.frame_store`). So there is no cycle of
references, and what a frame or an expression looks like does not depend on when one looks.
-/

namespace CallByNeed
set_option autoImplicit false

variable {ν σ : Type}

/-- A frame refers to its parent and to the frames that its body, bindings and arguments mention. -/
def Scope.RefersTo (scope inner : Scope ν) : Prop :=
  scope.parent? = some inner ∨ inner ∈ scopesAll scope.contents

namespace World

/-! ## Sessions -/

/-- One operation of a session: the host makes frames of stored ones or does something else that
leaves frames alone, or it starts an evaluation, which may succeed, fail or hit a limit. The state
of the host holds stored frames only. -/
inductive Performs (host : Host ν σ) (held : σ → List (Scope ν)) :
    World ν σ → World ν σ → Prop where
  | makes {before after : World ν σ} (h : Makes before after)
      (hheld : after.StoresAll (held after.host)) : Performs host held before after
  | evaluates (levels : Nat) (limits : Limits) (request : Evaluation ν) {world : World ν σ}
      (hrequest : world.StoresAll request.scopes) :
      Performs host held world ((host.engine levels limits).evaluate request world).world

/-- A world after any number of operations. -/
abbrev Course (host : Host ν σ) (held : σ → List (Scope ν)) : World ν σ → World ν σ → Prop :=
  Relation.ReflTransGen (Performs host held)

/-- A world that a session leads to. It starts without frames, so the host holds none. -/
def Attained (host : Host ν σ) (held : σ → List (Scope ν)) (world : World ν σ) : Prop :=
  ∃ start, held start = [] ∧ Course host held (.initial start) world

section Sessions

variable {host : Host ν σ} {held : σ → List (Scope ν)} (hhost : host.Honest held)
  {before after : World ν σ}
include hhost

theorem Performs.orderly (h : Performs host held before after) (horderly : before.Orderly held) :
    after.Orderly held ∧ before.Grows after := by
  cases h with
  | makes hmakes hheld => exact ⟨hmakes.orderly horderly hheld, hmakes.grows⟩
  | evaluates levels limits request hrequest =>
    have hnatives : (host.engine levels limits).invoke.Honest held := hhost.invokeAt levels
    have hpasses := Engine.evaluate_passes hnatives request horderly hrequest
    exact ⟨hpasses.orderly, hpasses.grows⟩

theorem Course.orderly (h : Course host held before after) (horderly : before.Orderly held) :
    after.Orderly held ∧ before.Grows after := by
  induction h with
  | refl => exact ⟨horderly, .refl _⟩
  | tail _ hperforms ih =>
    obtain ⟨hafter, hgrows⟩ := hperforms.orderly hhost ih.1
    exact ⟨hafter, ih.2.trans hgrows⟩

/-- All worlds of sessions are orderly. -/
theorem Attained.orderly {world : World ν σ} (h : Attained host held world) :
    world.Orderly held := by
  obtain ⟨start, hheld, hcourse⟩ := h
  exact (Course.orderly hhost hcourse (orderly_initial hheld)).1

end Sessions

/-! ## References -/

/-- The frame with the first number refers to the one with the second. -/
def Refers (world : World ν σ) (number other : Nat) : Prop :=
  ∃ scope inner, world.scopeAt number = some scope ∧ scope.RefersTo inner ∧ inner.number = other

/-- Frames stand at their numbers, in the order in which they are made, refer to earlier frames and
are of one of four shapes. -/
structure FrameStore (world : World ν σ) : Prop where
  number : ∀ {number scope}, world.scopeAt number = some scope → scope.number = number
  refers : ∀ {number scope}, world.scopeAt number = some scope →
    ∀ inner, scope.RefersTo inner →
      inner.number < number ∧ world.scopeAt inner.number = some inner
  records : ∀ {number name result}, world.recordAt number name = some result →
    result.toExpr.scopes = []
  root : ∀ {number scope}, world.scopeAt number = some scope → scope.kind = .root →
    scope.parent? = none ∧ scope.arguments? = none ∧ scope.body = .failure .rootScopeMisuse
  closure : ∀ {number scope}, world.scopeAt number = some scope → scope.kind = .closure →
    scope.parent?.isSome ∧ scope.arguments? = none
  thunk : ∀ {number scope}, world.scopeAt number = some scope → scope.kind = .thunk →
    scope.parent?.isSome ∧ scope.bindings = .empty ∧ scope.arguments? = none
  call : ∀ {number scope}, world.scopeAt number = some scope →
    (scope.arguments?.isSome ↔ scope.kind = .call)
  arguments : ∀ {number scope arguments}, world.scopeAt number = some scope →
    scope.arguments? = some arguments →
    ∀ argument ∈ arguments, ∃ thunk, argument = .scope thunk ∧ thunk.kind = .thunk

/-- Frames that are no call frames have no arguments. -/
theorem arguments?_eq_none {scope : Scope ν} (h : scope.kind ≠ .call) :
    scope.arguments? = none := by
  refine Option.not_isSome_iff_eq_none.1 fun hsome => ?_
  exact h (scope.isSome_arguments?_iff.1 hsome)

theorem Orderly.frameStore {held : σ → List (Scope ν)} {world : World ν σ}
    (h : world.Orderly held) : world.FrameStore := by
  have hstores : ∀ {number scope}, world.scopeAt number = some scope → world.Stores scope := by
    intro number scope hat
    rw [Stores, h.consistent.number hat, hat]
  have hshaped : ∀ {number scope}, world.scopeAt number = some scope → scope.Shaped :=
    fun hat => h.shaped _ (hstores hat)
  refine ⟨h.consistent.number, ?_, ?_, ?_, ?_, ?_, fun {_ scope} _ => scope.isSome_arguments?_iff,
    fun hat => (hshaped hat).arguments⟩
  · intro number scope hat inner hrefers
    have hsupports := h.consistent.supports (hstores hat)
    rw [← h.consistent.number hat]
    rcases hrefers with hparent | hinner
    · exact ⟨(hsupports.parent hparent).2, (hsupports.parent hparent).1⟩
    · exact ⟨(hsupports.contents inner hinner).2, (hsupports.contents inner hinner).1⟩
  · intro number name result _
    cases result <;> rfl
  · intro number scope hat hkind
    obtain ⟨hparent, hbody⟩ := (hshaped hat).root hkind
    exact ⟨hparent, arguments?_eq_none (by simp [hkind]), hbody⟩
  · intro number scope hat hkind
    obtain ⟨parent, hparent⟩ := (hshaped hat).closure hkind
    exact ⟨by simp [hparent], arguments?_eq_none (by simp [hkind])⟩
  · intro number scope hat hkind
    obtain ⟨hbindings, parent, hparent⟩ := (hshaped hat).thunk hkind
    exact ⟨by simp [hparent], hbindings, arguments?_eq_none (by simp [hkind])⟩

theorem FrameStore.refers_lt {world : World ν σ} (h : world.FrameStore) {number other : Nat}
    (hrefers : world.Refers number other) : other < number := by
  obtain ⟨scope, inner, hat, hrefers, rfl⟩ := hrefers
  exact (h.refers hat inner hrefers).1

/-- Following references comes to an end. -/
theorem FrameStore.wellFounded {world : World ν σ} (h : world.FrameStore) :
    WellFounded fun other number => world.Refers number other :=
  Subrelation.wf (fun hrefers => h.refers_lt hrefers) Nat.lt_wfRel.wf

theorem FrameStore.acyclic {world : World ν σ} (h : world.FrameStore) (number : Nat) :
    ¬Relation.TransGen world.Refers number number := by
  have hless : ∀ {first last}, Relation.TransGen world.Refers first last → last < first := by
    intro first last hchain
    induction hchain with
    | single hrefers => exact h.refers_lt hrefers
    | tail _ hrefers ih => exact Nat.lt_trans (h.refers_lt hrefers) ih
  exact fun hcycle => Nat.lt_irrefl _ (hless hcycle)

/-! ## What stays the same -/

/-- The expression with its frames as the world has them now. -/
def read (world : World ν σ) (expr : Expr ν) : Expr ν :=
  expr.replaceScopes fun scope => (world.scopeAt scope.number).getD scope

/-- Frames of a world are the same in a later one, in all their parts and in all that can be asked
of them, and so are its records. -/
structure Preserves (before after : World ν σ) : Prop where
  kind : ∀ number < before.size,
    (after.scopeAt number).map Scope.kind = (before.scopeAt number).map Scope.kind
  bindings : ∀ number < before.size,
    (after.scopeAt number).map Scope.bindings = (before.scopeAt number).map Scope.bindings
  arguments : ∀ number < before.size,
    (after.scopeAt number).map Scope.arguments? = (before.scopeAt number).map Scope.arguments?
  body : ∀ number < before.size,
    (after.scopeAt number).map Scope.body = (before.scopeAt number).map Scope.body
  parent : ∀ number < before.size,
    (after.scopeAt number).map Scope.parent? = (before.scopeAt number).map Scope.parent?
  records : ∀ {number name result}, before.recordAt number name = some result →
    after.recordAt number name = some result
  find : ∀ name, ∀ number < before.size,
    (after.scopeAt number).map (·.find name) = (before.scopeAt number).map (·.find name)
  lookup : ∀ name, ∀ number < before.size,
    (after.scopeAt number).map (·.lookup name) = (before.scopeAt number).map (·.lookup name)
  depth : ∀ number < before.size,
    (after.scopeAt number).map Scope.depth = (before.scopeAt number).map Scope.depth
  display : ∀ expr : Expr ν, before.StoresAll expr.scopes →
    (after.read expr).display = (before.read expr).display
  debug : ∀ expr : Expr ν, before.StoresAll expr.scopes →
    (after.read expr).debug = (before.read expr).debug

theorem isSome_scopeAt {world : World ν σ} {number : Nat} (h : number < world.size) :
    (world.scopeAt number).isSome := by
  simp only [scopeAt, Option.isSome_map]
  rw [Array.getElem?_eq_getElem h]
  rfl

theorem Grows.scopeAt_eq {before after : World ν σ} (h : before.Grows after) {number : Nat}
    (hnumber : number < before.size) : after.scopeAt number = before.scopeAt number := by
  obtain ⟨scope, hscope⟩ := Option.isSome_iff_exists.1 (isSome_scopeAt hnumber)
  rw [hscope]
  exact h.scope hscope

theorem Grows.read_eq {before after : World ν σ} (h : before.Grows after) {expr : Expr ν}
    (hexpr : before.StoresAll expr.scopes) : after.read expr = before.read expr := by
  refine expr.replaceScopes_congr fun inner hm => ?_
  rw [h.scopeAt_eq (hexpr inner hm).lt_size]

theorem Grows.preserves {before after : World ν σ} (h : before.Grows after) :
    before.Preserves after where
  kind _ hnumber := by rw [h.scopeAt_eq hnumber]
  bindings _ hnumber := by rw [h.scopeAt_eq hnumber]
  arguments _ hnumber := by rw [h.scopeAt_eq hnumber]
  body _ hnumber := by rw [h.scopeAt_eq hnumber]
  parent _ hnumber := by rw [h.scopeAt_eq hnumber]
  records := h.record
  find _ _ hnumber := by rw [h.scopeAt_eq hnumber]
  lookup _ _ hnumber := by rw [h.scopeAt_eq hnumber]
  depth _ hnumber := by rw [h.scopeAt_eq hnumber]
  display _ hexpr := by rw [h.read_eq hexpr]
  debug _ hexpr := by rw [h.read_eq hexpr]

/-- At any time of a session frames are in shape and refer to earlier frames only, there is no cycle
of references and each chain of them ends, and whatever is done later changes no frame and no
record. -/
theorem Attained.frame_store {host : Host ν σ} {held : σ → List (Scope ν)}
    (hhost : host.Honest held) {world : World ν σ} (h : Attained host held world) :
    world.FrameStore ∧
      (∀ number, ¬Relation.TransGen world.Refers number number) ∧
      (WellFounded fun other number => world.Refers number other) ∧
      ∀ {after : World ν σ}, Course host held world after → world.Preserves after := by
  have horderly := h.orderly hhost
  have hstore := horderly.frameStore
  exact ⟨hstore, hstore.acyclic, hstore.wellFounded,
    fun hcourse => (Course.orderly hhost hcourse horderly).2.preserves⟩

end World

/-- A root frame that binds the block of its first argument. -/
def blockOfArgument : Scope StandardNative × World StandardNative HostState :=
  (World.initial .initial).newRoot (.ofList [("block", .block (.identifier "$0"))])

/-- A block applied to a native method leaves four frames: the root frame, the closure, the call
and the thunk of the argument. -/
theorem frame_store_of_call :
    let before := blockOfArgument.2
    let after := ((standardHost.engine 1 ⟨20, 4⟩).evaluate
      (.force (.application (.identifier "block") [.native ⟨"here", .here⟩]) blockOfArgument.1)
      before).world
    after.size = 4 ∧ after.FrameStore ∧ before.Preserves after ∧
      ∀ number, ¬Relation.TransGen after.Refers number number := by
  intro before after
  have hstart : World.Performs standardHost Standard.heldScopes (.initial .initial) before :=
    .makes (.root _ fun _ hm => absurd hm List.not_mem_nil) .nil
  have hcall : World.Performs standardHost Standard.heldScopes before after :=
    .evaluates 1 ⟨20, 4⟩ _ (.cons rfl .nil)
  have hbefore : World.Attained standardHost Standard.heldScopes before :=
    ⟨.initial, rfl, .single hstart⟩
  have hafter : World.Attained standardHost Standard.heldScopes after :=
    ⟨.initial, rfl, .tail (.single hstart) hcall⟩
  obtain ⟨hstore, hacyclic, -, -⟩ := hafter.frame_store standardHost_honest
  obtain ⟨-, -, -, hlater⟩ := hbefore.frame_store standardHost_honest
  exact ⟨by decide +kernel, hstore, hlater (.single hcall), hacyclic⟩

end CallByNeed
