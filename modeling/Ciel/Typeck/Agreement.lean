import Ciel.Typeck.Effects
import Ciel.Typeck.Orderly

/-!
# Scopes and stores that agree

A `Watch` names what must not be read on a path. The checker's scopes agree with
a store if a local that the checker takes to be assigned sits in a cell that may
be read. This module says how agreement survives what happens on both sides: a
local is declared, assigned or consumed, flows are merged, code is checked ahead
of its turn, an iteration ends.

`Kept` is the other half of the invariant. It compares the store before and
after some code: cells that could be read still can, unless they hold a fragile
local that the code moves, and even then if the local was declared outside the
innermost loop, where the checker allows no moves.
-/

namespace Ciel.Typeck

open Library (Scopes)

/-- What is watched on a path: the cells that must not be read, the locals that
are never in such a cell, and the locals that consuming puts into one. -/
structure Watch where
  bad : LocalId → Cell → Bool
  steady : LocalId → Bool
  fragile : LocalId → Bool
  assigned_ok : ∀ x depth, bad x ⟨true, false, depth⟩ = false
  consume_ok : ∀ x c, fragile x = false → bad x c = false → bad x c.consume = false
  steady_sturdy : ∀ x, steady x = true → fragile x = false

/-- The locals an occurrence list moves. -/
def Moved (uses : List (Use × LocalId)) (x : LocalId) : Prop := (Use.move, x) ∈ uses

namespace Watch

variable (w : Watch)

/-- The locals mentioned are in `M`, the locals moved in `U`, and a steady local
that is declared without a value may be read all the same. -/
def Covers (M U : LocalId → Prop) (uses : List (Use × LocalId)) : Prop :=
  ∀ u ∈ uses, (u.1 = .mention → M u.2) ∧ (u.1 = .move → U u.2) ∧
    (u.1 = .bare → w.steady u.2 = true → ∀ depth, w.bad u.2 ⟨false, false, depth⟩ = false)

/-- A cell and the checker's binding for it. The binding's promise is only relied
on for the locals in `M`. -/
structure Fits (depth : Nat) (M : LocalId → Prop) (x : LocalId) (c : Cell)
    (b : Binding) : Prop where
  sameDepth : c.loopDepth = b.declaredLoopDepth
  declared : c.loopDepth ≤ depth
  promise : M x → b.initState = .assigned → w.bad x c = false
  steady : w.steady x = true → w.bad x c = false

def Agrees (depth : Nat) (M : LocalId → Prop) (σ : Store) (s : LocalScopes) : Prop :=
  Scopes.Rel (w.Fits depth M) σ s

/-- A cell before and after some code that moves only locals of `U`, inside so
many loops and in a returned value or not. -/
structure Keeps (returning : Bool) (depth : Nat) (U : LocalId → Prop) (x : LocalId)
    (c c' : Cell) : Prop where
  sameDepth : c'.loopDepth = c.loopDepth
  keeps : (returning = false ∧ c.loopDepth < depth) ∨ ¬(w.fragile x = true ∧ U x) →
    w.bad x c = false → w.bad x c' = false

def Kept (ctx : Context) (U : LocalId → Prop) (σ τ : Store) : Prop :=
  Scopes.Rel (w.Keeps ctx.returnLoopMove ctx.loopDepth U) σ τ

/-- No fragile local is moved. -/
def Sturdy (U : LocalId → Prop) : Prop := ∀ x, U x → w.fragile x = false

variable {w} {locals : Locals} {ctx ctx' : Context} {depth depth' : Nat}
    {M M' U U' : LocalId → Prop}
variable {σ τ υ : Store} {s s' t : LocalScopes} {x : LocalId}

theorem covers_append {l m : List (Use × LocalId)} :
    w.Covers M U (l ++ m) ↔ w.Covers M U l ∧ w.Covers M U m := List.forall_mem_append

theorem Covers.moved {uses : List (Use × LocalId)} (h : w.Covers M U uses) (moved : Moved uses x) :
    U x := (h _ moved).2.1 rfl

theorem Covers.tight {uses : List (Use × LocalId)} (h : w.Covers M U uses) :
    w.Covers M (Moved uses) uses := fun u mem =>
  ⟨(h u mem).1, fun kind => by obtain ⟨_, x⟩ := u; cases kind; exact mem, (h u mem).2.2⟩

theorem Kept.refl (σ : Store) : w.Kept ctx U σ σ :=
  Scopes.Rel.refl (fun _ _ => ⟨rfl, fun _ h => h⟩) σ

theorem Kept.trans (first : w.Kept ctx U σ τ) (second : w.Kept ctx U τ υ) : w.Kept ctx U σ υ :=
  Scopes.Rel.trans first second fun _ _ _ _ f g => ⟨g.sameDepth.trans f.sameDepth,
    fun may ok => g.keeps (f.sameDepth ▸ may) (f.keeps may ok)⟩

theorem Kept.mono (h : w.Kept ctx U σ τ) (moves : ∀ x, U x → U' x)
    (looser : ctx'.returnLoopMove = false → ctx.returnLoopMove = false)
    (shallower : ctx'.loopDepth ≤ ctx.loopDepth) : w.Kept ctx' U' σ τ :=
  Scopes.Rel.mono h fun x _ _ k => ⟨k.sameDepth, fun may ok => k.keeps
    (may.imp (fun ⟨r, d⟩ => ⟨looser r, Nat.lt_of_lt_of_le d shallower⟩)
      fun n m => n ⟨m.1, moves x m.2⟩) ok⟩

theorem Kept.weaken (h : w.Kept ctx U σ τ) (moves : ∀ x, U x → U' x) : w.Kept ctx U' σ τ :=
  h.mono moves id (Nat.le_refl _)

/-- Code that moves nothing fragile keeps everything, in any context. -/
theorem Kept.sturdy (h : w.Kept ctx U σ τ) (sturdy : w.Sturdy U) : w.Kept ctx' U' σ τ :=
  Scopes.Rel.mono h fun x _ _ k => ⟨k.sameDepth, fun _ =>
    k.keeps (.inr fun ⟨fragile, moved⟩ => by rw [sturdy x moved] at fragile; cases fragile)⟩

theorem Agrees.mono (h : w.Agrees depth M σ s) (fewer : ∀ x, M' x → M x) (deeper : depth ≤ depth') :
    w.Agrees depth' M' σ s :=
  Scopes.Rel.mono h fun x _ _ f =>
    ⟨f.sameDepth, Nat.le_trans f.declared deeper, fun m => f.promise (fewer x m), f.steady⟩

/-- Agreement survives code that keeps the cells it relies on. -/
theorem Agrees.kept (h : w.Agrees depth M σ s) (k : w.Kept ctx U σ τ) (fewer : ∀ x, M' x → M x)
    (safe : ∀ x, M' x ∨ w.steady x = true →
      (ctx.returnLoopMove = false ∧ depth < ctx.loopDepth) ∨ ¬(w.fragile x = true ∧ U x)) :
    w.Agrees depth M' τ s :=
  Scopes.Rel.trans (Scopes.Rel.symm k) h fun x c' c b k f => by
    have may : M' x ∨ w.steady x = true →
        (ctx.returnLoopMove = false ∧ c.loopDepth < ctx.loopDepth) ∨
          ¬(w.fragile x = true ∧ U x) :=
      fun relied => (safe x relied).imp_left fun ⟨r, d⟩ => ⟨r, Nat.lt_of_le_of_lt f.declared d⟩
    exact ⟨k.sameDepth.trans f.sameDepth, k.sameDepth ▸ f.declared,
      fun m assigned => k.keeps (may (.inl m)) (f.promise (fewer x m) assigned),
      fun steady => k.keeps (may (.inr steady)) (f.steady steady)⟩

/-- An iteration that ends keeps what held at its start. -/
theorem Agrees.kept_loop (h : w.Agrees depth M σ s) (k : w.Kept ctx U σ τ)
    (deeper : depth < ctx.loopDepth) (settled : ctx.returnLoopMove = true → w.Sturdy U) :
    w.Agrees depth M τ s := by
  refine h.kept k (fun _ m => m) fun x _ => ?_
  cases returning : ctx.returnLoopMove with
  | false => exact .inl ⟨rfl, deeper⟩
  | true =>
    refine .inr fun ⟨fragile, moved⟩ => ?_
    rw [settled returning x moved] at fragile
    cases fragile

theorem Agrees.kept_sturdy (h : w.Agrees depth M σ s) (k : w.Kept ctx U σ τ)
    (sturdy : w.Sturdy U) : w.Agrees depth M τ s :=
  h.kept k (fun _ m => m) fun x _ => .inr fun ⟨fragile, moved⟩ => by
    rw [sturdy x moved] at fragile
    cases fragile

/-- Cells declared outside of a loop stay that. -/
theorem Agrees.lower (start : w.Agrees depth M σ s) (k : w.Kept ctx U σ τ)
    (h : w.Agrees depth' M' τ t) : w.Agrees depth M' τ t := by
  have outside : Scopes.Rel (fun x c c' => c' = c ∧ c.loopDepth ≤ depth) τ τ := by
    have both : Scopes.Rel (fun x c' b => c'.loopDepth ≤ depth) τ s :=
      Scopes.Rel.trans (Scopes.Rel.symm k) start fun x c' c b k f => k.sameDepth ▸ f.declared
    exact both.diag fun _ _ _ le => le
  exact outside.trans h fun x c c' b ⟨same, le⟩ f => by
    subst same
    exact ⟨f.sameDepth, le, f.promise, f.steady⟩

/-- The checker may look ahead at code that assigns only steady locals. -/
theorem Agrees.ahead {A : LocalId → Prop} (h : w.Agrees depth M σ s)
    (gains : Scopes.Rel (Binding.Gains A) s s') (steady : ∀ x, A x → w.steady x = true) :
    w.Agrees depth M σ s' :=
  Scopes.Rel.trans h gains fun x _ _ _ f g => ⟨f.sameDepth.trans g.1.symm, f.declared,
    fun m assigned => (g.2 assigned).elim (f.promise m) fun a => f.steady (steady x a), f.steady⟩

theorem Agrees.push (h : w.Agrees depth M σ s) : w.Agrees depth M σ.push s.push := Scopes.Rel.push h

theorem Agrees.pop (h : w.Agrees depth M σ s) : w.Agrees depth M σ.pop s.pop := Scopes.Rel.pop h

/-- A declaration, with or without a value. -/
theorem Agrees.insert {assigned bound : Bool} (h : w.Agrees ctx.loopDepth M σ s)
    (inserted : insert locals ctx x assigned s = .ok s') (value : assigned = true → bound = true)
    (steady : w.steady x = true → w.bad x ⟨bound, false, ctx.loopDepth⟩ = false) :
    w.Agrees ctx.loopDepth M (σ.declare x ⟨bound, false, ctx.loopDepth⟩) s' := by
  rw [insert_eq inserted]
  refine Scopes.Rel.declare h ⟨rfl, Nat.le_refl _, fun _ state => ?_, steady⟩
  cases assigned with
  | false => cases state
  | true =>
    rw [value rfl]
    exact w.assigned_ok x ctx.loopDepth

theorem Agrees.assign (h : w.Agrees depth M σ s) :
    w.Agrees depth M (σ.modify x Cell.assign) (s.modify x Binding.markAssigned) :=
  Scopes.Rel.modify h fun c _ _ _ f => ⟨f.sameDepth, f.declared,
    fun _ _ => w.assigned_ok x c.loopDepth, fun _ => w.assigned_ok x c.loopDepth⟩

theorem Kept.assign (σ : Store) : w.Kept ctx U σ (σ.modify x Cell.assign) :=
  Scopes.Rel.modify_right (Kept.refl σ) fun _ c _ _ k =>
    ⟨k.sameDepth, fun _ _ => w.assigned_ok x c.loopDepth⟩

/-- A move that the checker allows. -/
theorem Agrees.consume (h : w.Agrees depth M σ s) (moved : U x)
    (outside : ctx.returnLoopMove = false →
      ∀ b, s.get? x = some b → ctx.loopDepth ≤ b.declaredLoopDepth) :
    w.Agrees depth M (σ.modify x Cell.consume) (s.modify x Binding.markMoved) ∧
      w.Kept ctx U σ (σ.modify x Cell.consume) := by
  constructor
  · exact Scopes.Rel.modify h fun c _ _ _ f => ⟨f.sameDepth, f.declared, nofun,
      fun steady => w.consume_ok x c (w.steady_sturdy x steady) (f.steady steady)⟩
  · refine Scopes.Rel.modify_right (Kept.refl σ) fun c c' found found' k => ⟨k.sameDepth, ?_⟩
    obtain rfl : c = c' := Option.some_inj.1 (found.symm.trans found')
    intro may ok
    have sturdy : w.fragile x = false := by
      refine Bool.not_eq_true _ ▸ may.elim (fun ⟨notReturning, inside⟩ => ?_) fun n f =>
        n ⟨f, moved⟩
      have related := Scopes.Rel.get? h x
      rw [found] at related
      cases binding : s.get? x with
      | none => rw [binding] at related; cases related
      | some b =>
        rw [binding] at related
        cases related with
        | some fits =>
          have := outside notReturning b binding
          have := fits.sameDepth
          omega
    exact w.consume_ok x c sturdy ok

/-- Flows that continue the same scopes merge into scopes that agree with any of them. -/
theorem Agrees.merge {A : LocalId → Prop} {before : LocalScopes} {flows : List LocalScopes}
    (all : ∀ t ∈ flows, Scopes.Rel (Binding.Gains A) s t) (mem : t ∈ flows)
    (h : w.Agrees depth M σ t) : w.Agrees depth M σ (before.mergeReachableFlows flows) := by
  cases flows with
  | nil => cases mem
  | cons first rest =>
    -- every flow has the cells' depths, as the one that was taken has
    have shape : ∀ u ∈ first :: rest,
        Scopes.Rel (fun _ (c : Cell) (b : Binding) => c.loopDepth = b.declaredLoopDepth) σ u := by
      intro u inside
      have same := (Scopes.Rel.symm (all t mem)).trans (all u inside)
        (S := fun _ b b' => b'.declaredLoopDepth = b.declaredLoopDepth)
        fun _ _ _ _ g g' => g'.1.trans g.1.symm
      exact Scopes.Rel.trans h same fun _ _ _ _ f same => f.sameDepth.trans same.symm
    refine Scopes.Rel.foldl_combine (f := Binding.merge) ?_ ?_ (fun _ _ _ _ left _ => left)
      first rest shape ⟨t, mem, h⟩
    · intro x c b b' f _
      exact ⟨f.sameDepth, f.declared,
        fun m state => f.promise m (InitState.merge_eq_assigned.1 state).1, f.steady⟩
    · intro x c b b' same f
      exact ⟨same, f.declared,
        fun m state => f.promise m (InitState.merge_eq_assigned.1 state).2, f.steady⟩

end Watch

end Ciel.Typeck
