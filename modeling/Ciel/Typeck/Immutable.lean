import Ciel.Typeck.Assignments
import Ciel.Typeck.Bridge

/-!
# Immutable locals while a body runs

The checker lets an immutable local be assigned where it takes the local to be
unassigned, and only at the loop depth of its declaration. The scopes agree with a
store here if such a local sits in a cell that was not assigned yet. What code does
to the store is limited as well: it leaves the cells of immutable locals alone,
except for those it assigns itself, and even those if they were declared outside
the innermost loop.

A local that a check leaves unassigned was unassigned before. So looking ahead at
code that runs later only makes the checker stricter, and only two things can go
wrong: an assignment validates its target before it looks at the value, and code
that is checked first but runs last is judged as if nothing had happened since.
-/

namespace Ciel.Typeck

open Library (Scopes Outcome Runs)
open Library.Runs (Meets)

variable {V : LocalId → Prop}

/-- A local that is assigned at most once. -/
def Locals.fixed (locals : Locals) (x : LocalId) : Bool := (locals x).mutability = .immutable

/-- An assignment to an immutable local in a cell that holds a value. -/
def assignedAgain (locals : Locals) (x : LocalId) (c : Cell) : Bool := locals.fixed x && c.assigned

/-- A join is unassigned only if both sides are. -/
theorem InitState.merge_eq_unassigned {a b : InitState} :
    a.merge b = .unassigned ↔ a = .unassigned ∧ b = .unassigned := by
  cases a <;> cases b <;> decide

/-- The same declaration, and no less assigned. -/
structure Binding.Later (x : LocalId) (b b' : Binding) : Prop where
  sameDepth : b'.declaredLoopDepth = b.declaredLoopDepth
  mutability : b'.mutability = b.mutability
  unassigned : b'.initState = .unassigned → b.initState = .unassigned

theorem later_tracks : Tracks (fun _ => True) Binding.Later where
  refl _ _ := ⟨rfl, rfl, id⟩
  trans _ _ _ _ first second := ⟨second.sameDepth.trans first.sameDepth,
    second.mutability.trans first.mutability, fun h => first.unassigned (second.unassigned h)⟩
  merge _ _ _ _ left _ := ⟨left.sameDepth, left.mutability,
    fun h => left.unassigned (InitState.merge_eq_unassigned.1 h).1⟩
  moved _ _ _ h := ⟨h.sameDepth, h.mutability, nofun⟩
  assigned _ _ _ _ h := ⟨h.sameDepth, h.mutability, nofun⟩

/-- The locals an occurrence list assigns. -/
def Assigned (uses : List (Use × LocalId)) (x : LocalId) : Prop := (Use.assign, x) ∈ uses

/-- The locals assigned are in `M` and in `U`. -/
def Includes (M U : LocalId → Prop) (uses : List (Use × LocalId)) : Prop :=
  ∀ x, Assigned uses x → M x ∧ U x

namespace Locals

variable (locals : Locals)

/-- A cell and the checker's binding for it. What the binding says of an immutable
local is only relied on for the locals in `M`. -/
structure Fits (depth : Nat) (M : LocalId → Prop) (x : LocalId) (c : Cell)
    (b : Binding) : Prop where
  sameDepth : c.loopDepth = b.declaredLoopDepth
  declared : c.loopDepth ≤ depth
  mutability : b.mutability = (locals x).mutability
  fresh : M x → locals.fixed x = true → b.initState = .unassigned → c.assigned = false

def Agrees (depth : Nat) (M : LocalId → Prop) (σ : Store) (s : LocalScopes) : Prop :=
  Scopes.Rel (locals.Fits depth M) σ s

/-- A cell before and after code that assigns only locals of `U`, inside so many
loops. -/
structure Keeps (depth : Nat) (U : LocalId → Prop) (x : LocalId) (c c' : Cell) : Prop where
  sameDepth : c'.loopDepth = c.loopDepth
  keeps : locals.fixed x = true → c.loopDepth < depth ∨ ¬U x → c'.assigned = c.assigned

def Kept (ctx : Context) (U : LocalId → Prop) (σ τ : Store) : Prop :=
  Scopes.Rel (locals.Keeps ctx.loopDepth U) σ τ

variable {locals} {ctx ctx' : Context} {depth depth' : Nat} {M M' U U' : LocalId → Prop}
variable {σ τ υ : Store} {s s' t : LocalScopes} {x : LocalId}

theorem Kept.refl (σ : Store) : locals.Kept ctx U σ σ :=
  Scopes.Rel.refl (fun _ _ => ⟨rfl, fun _ _ => rfl⟩) σ

theorem Kept.trans (first : locals.Kept ctx U σ τ) (second : locals.Kept ctx U τ υ) :
    locals.Kept ctx U σ υ :=
  Scopes.Rel.trans first second fun _ _ _ _ f g => ⟨g.sameDepth.trans f.sameDepth,
    fun isFixed may => (g.keeps isFixed (f.sameDepth ▸ may)).trans (f.keeps isFixed may)⟩

theorem Kept.mono (h : locals.Kept ctx U σ τ) (more : ∀ x, U x → U' x)
    (shallower : ctx'.loopDepth ≤ ctx.loopDepth) : locals.Kept ctx' U' σ τ :=
  Scopes.Rel.mono h fun x _ _ k => ⟨k.sameDepth, fun isFixed may => k.keeps isFixed
    (may.imp (fun d => Nat.lt_of_lt_of_le d shallower) fun n m => n (more x m))⟩

/-- Handing a value over does not touch the record of assignments. -/
theorem Kept.consume (σ : Store) : locals.Kept ctx U σ (σ.modify x Cell.consume) :=
  Scopes.Rel.modify_right (Kept.refl σ) fun _ _ _ _ k => ⟨k.sameDepth, k.keeps⟩

theorem Kept.consumeLocal (σ : Store) : locals.Kept ctx U σ (consumeLocal locals x σ) := by
  rw [Typeck.consumeLocal]
  split
  · exact Kept.consume σ
  · exact Kept.refl σ

theorem Kept.consumeAll (captures : List LocalId) (σ : Store) :
    locals.Kept ctx U σ (consumeAll locals captures σ) := by
  induction captures generalizing σ with
  | nil => exact Kept.refl σ
  | cons x rest ih => exact (Kept.consumeLocal σ).trans (ih _)

/-- Agreement survives code that keeps the cells it relies on. -/
theorem Agrees.kept (h : locals.Agrees depth M σ s) (k : locals.Kept ctx U σ τ)
    (fewer : ∀ x, M' x → M x)
    (safe : ∀ x, M' x → locals.fixed x = true → depth < ctx.loopDepth ∨ ¬U x) :
    locals.Agrees depth M' τ s :=
  Scopes.Rel.trans (Scopes.Rel.symm k) h fun x c' c b k f => by
    refine ⟨k.sameDepth.trans f.sameDepth, k.sameDepth ▸ f.declared, f.mutability, ?_⟩
    intro relied isFixed unassigned
    have may := (safe x relied isFixed).imp_left fun d => Nat.lt_of_le_of_lt f.declared d
    rw [k.keeps isFixed may]
    exact f.fresh (fewer x relied) isFixed unassigned

/-- Code that assigns nothing leaves the agreement alone. -/
theorem Agrees.untouched (h : locals.Agrees depth M σ s)
    (k : locals.Kept ctx (fun _ => False) σ τ) : locals.Agrees depth M τ s :=
  h.kept k (fun _ m => m) fun _ _ _ => .inr id

theorem Agrees.deeper (h : locals.Agrees depth M σ s) (le : depth ≤ depth') :
    locals.Agrees depth' M σ s :=
  Scopes.Rel.mono h fun _ _ _ f => ⟨f.sameDepth, Nat.le_trans f.declared le, f.mutability, f.fresh⟩

theorem Agrees.fewer (h : locals.Agrees depth M σ s) (fewer : ∀ x, M' x → M x) :
    locals.Agrees depth M' σ s :=
  Scopes.Rel.mono h fun x _ _ f =>
    ⟨f.sameDepth, f.declared, f.mutability, fun relied => f.fresh (fewer x relied)⟩

/-- Cells declared outside of a loop stay that. -/
theorem Agrees.lower (start : locals.Agrees depth M σ s) (k : locals.Kept ctx U σ τ)
    (h : locals.Agrees depth' M' τ t) : locals.Agrees depth M' τ t := by
  have outside : Scopes.Rel (fun _ c c' => c' = c ∧ c.loopDepth ≤ depth) τ τ := by
    have both : Scopes.Rel (fun _ c' _ => c'.loopDepth ≤ depth) τ s :=
      Scopes.Rel.trans (Scopes.Rel.symm k) start fun _ _ _ _ k f => k.sameDepth ▸ f.declared
    exact both.diag fun _ _ _ le => le
  exact outside.trans h fun _ _ _ _ ⟨same, le⟩ f => by
    subst same
    exact ⟨f.sameDepth, le, f.mutability, f.fresh⟩

/-- Scopes that say less about what is unassigned agree as well. -/
theorem Agrees.ahead (h : locals.Agrees depth M σ s) (later : Scopes.Rel Binding.Later s s') :
    locals.Agrees depth M σ s' :=
  Scopes.Rel.trans h later fun _ _ _ _ f l => ⟨f.sameDepth.trans l.sameDepth.symm, f.declared,
    l.mutability.trans f.mutability,
    fun relied isFixed unassigned => f.fresh relied isFixed (l.unassigned unassigned)⟩

/-- Agreement on two sets of locals is agreement on both. -/
theorem Agrees.both (left : locals.Agrees depth M σ s) (right : locals.Agrees depth M' σ s) :
    locals.Agrees depth (fun x => M x ∨ M' x) σ s :=
  (Scopes.Rel.and left right).mono fun _ _ _ ⟨f, g⟩ => ⟨f.sameDepth, f.declared, f.mutability,
    fun relied => relied.elim f.fresh g.fresh⟩

theorem Agrees.insert {assigned bound : Bool} (h : locals.Agrees ctx.loopDepth M σ s)
    (inserted : insert locals ctx x assigned s = .ok s') (value : bound = true → assigned = true) :
    locals.Agrees ctx.loopDepth M (σ.declare x ⟨bound, false, ctx.loopDepth⟩) s' := by
  rw [insert_eq inserted]
  refine Scopes.Rel.declare h ⟨rfl, Nat.le_refl _, rfl, fun _ _ unassigned => ?_⟩
  cases bound with
  | false => rfl
  | true =>
    rw [value rfl] at unassigned
    cases unassigned

/-- Flows that continue the same scopes merge into scopes that agree with any of them. -/
theorem Agrees.merge {before : LocalScopes} {flows : List LocalScopes}
    (all : ∀ t ∈ flows, Scopes.Rel Binding.Later s t) (mem : t ∈ flows)
    (h : locals.Agrees depth M σ t) :
    locals.Agrees depth M σ (before.mergeReachableFlows flows) := by
  cases flows with
  | nil => cases mem
  | cons first rest =>
    -- every flow declares the same locals, as the one that was taken does
    have shape : ∀ u ∈ first :: rest, Scopes.Rel (fun x (c : Cell) (b : Binding) =>
        c.loopDepth = b.declaredLoopDepth ∧ b.mutability = (locals x).mutability) σ u := by
      intro u inside
      have same := (Scopes.Rel.symm (all t mem)).trans (all u inside)
        (S := fun _ b b' => b'.declaredLoopDepth = b.declaredLoopDepth ∧
          b'.mutability = b.mutability)
        fun _ _ _ _ g g' => ⟨g'.sameDepth.trans g.sameDepth.symm,
          g'.mutability.trans g.mutability.symm⟩
      exact Scopes.Rel.trans h same fun _ _ _ _ f same =>
        ⟨f.sameDepth.trans same.1.symm, same.2.trans f.mutability⟩
    refine Scopes.Rel.foldl_combine (f := Binding.merge) ?_ ?_ (fun _ _ _ _ left _ => left)
      first rest shape ⟨t, mem, h⟩
    · intro x c b b' f _
      exact ⟨f.sameDepth, f.declared, f.mutability, fun relied isFixed unassigned =>
        f.fresh relied isFixed (InitState.merge_eq_unassigned.1 unassigned).1⟩
    · intro x c b b' same f
      exact ⟨same.1, f.declared, same.2, fun relied isFixed unassigned =>
        f.fresh relied isFixed (InitState.merge_eq_unassigned.1 unassigned).2⟩

/-- Fresh cells as a comparison of scopes and stores. -/
def bridge (locals : Locals) (M U : LocalId → Prop) : Bridge where
  Faults := False
  depth := Context.loopDepth
  Drifts := Binding.Later
  Agrees depth := locals.Agrees depth M
  Kept ctx := locals.Kept ctx U
  drifts_refl := later_tracks.refl
  push := Scopes.Rel.push
  pop := Scopes.Rel.pop
  merge := Agrees.merge
  kept_refl _ := Kept.refl
  kept_trans := Kept.trans
  kept_pop := Scopes.Rel.pop

/-! ## Rules -/

section

variable {a b : Runs Store} {r r' : Checked} {e : Expr} {mode : Mode} {view : Store → Store}

theorem consumeAs_later (consumed : consumeAs locals ctx mode e r = .ok r') :
    Scopes.Rel Binding.Later r.scopes r'.scopes := by
  have same : Scopes.Rel Binding.Later r.scopes r.scopes := .refl later_tracks.refl r.scopes
  obtain ⟨rfl, -⟩ | ⟨x, -, -, -, -, rfl⟩ := consumeAs_cases consumed
  · exact same
  · exact same.modify_right fun _ _ _ _ l => later_tracks.moved _ _ _ l

theorem handOver_untouched {out : Outcome} (path : handOver locals mode e σ out τ) :
    out = .normal ∧ locals.Kept ctx (fun _ => False) σ τ := by
  obtain skipped | ⟨x, moved⟩ := handOver_cases mode e
  · rw [skipped] at path
    obtain ⟨rfl, rfl⟩ := path
    exact ⟨rfl, Kept.refl _⟩
  · rw [moved] at path
    obtain ⟨rfl, rfl⟩ := path
    exact ⟨rfl, Kept.consumeLocal σ⟩

/-- The value of a checked operand is handed over. -/
theorem handOver_meets {B : Store → Prop} (consumed : consumeAs locals ctx mode e r = .ok r') :
    Meets False ((locals.bridge M U).Ends ctx.loopDepth r) (handOver locals mode e)
      ((locals.bridge M U).Ends ctx.loopDepth r') B (locals.Kept ctx U) := by
  rintro σ out τ ⟨falls, agrees⟩ path
  have ⟨ended, kept⟩ : out = .normal ∧ locals.Kept ctx (fun _ => False) σ τ :=
    handOver_untouched path
  subst ended
  refine Meets.of_normal ⟨(consumeAs_falls consumed).trans falls, ?_⟩
    (kept.mono (fun _ => False.elim) (Nat.le_refl _))
  exact (Agrees.untouched agrees kept).ahead (consumeAs_later consumed)

theorem sound_readLocal (checked : checkName locals x s = .ok r) :
    (locals.bridge M U).Sound view ctx s (readLocal (fun _ _ => false) x) r := by
  rintro σ out τ agrees ⟨rfl, rfl⟩
  simp only [checkName] at checked
  split at checked
  · cases checked
  · rename_i b found
    split at checked
    · cases checked
      have related := Scopes.Rel.get? agrees x
      rw [found] at related
      cases cell : τ.get? x with
      | none => rw [cell] at related; cases related
      | some c => exact Meets.of_normal ⟨rfl, agrees⟩ (Kept.refl (view τ))
    · split at checked <;> cases checked

theorem readCaptures_meets {captures : List LocalId} {P B : Store → Prop} :
    Meets False P (readCaptures (fun _ _ => false) captures) P B (locals.Kept ctx U) := by
  rintro σ out τ pre ⟨rfl, rfl⟩
  have readable : (captures.any fun x => (τ.get? x).any fun _ => false) = false := by
    rw [List.any_eq_false]
    intro x _
    cases τ.get? x <;> exact nofun
  rw [readable]
  exact Meets.of_normal pre (Kept.refl τ)

/-- What a valid target says about the store: an immutable local is in a cell that
was not assigned, declared inside the same loops. -/
theorem validated_cell {u : Unit} (valid : validateAssignmentTarget ctx x s = .ok u)
    (agrees : locals.Agrees ctx.loopDepth M σ s) (relied : M x) (isFixed : locals.fixed x = true) :
    ∀ c, σ.get? x = some c → c.assigned = false ∧ ctx.loopDepth ≤ c.loopDepth := by
  intro c cell
  have related := Scopes.Rel.get? agrees x
  simp only [validateAssignmentTarget] at valid
  split at valid
  · cases valid
  · rename_i b found
    rw [cell, found] at related
    cases related with
    | some fits =>
      have immutable : b.mutability = .immutable := by
        rw [fits.mutability]
        simpa [Locals.fixed] using isFixed
      simp only [immutable] at valid
      split at valid
      · rename_i unassigned
        split at valid
        · cases valid
        · rename_i inside
          have sameDepth := fits.sameDepth
          exact ⟨fits.fresh relied isFixed unassigned, by omega⟩
      · cases valid

/-- An assignment of a valid target whose value does not assign it. -/
theorem sound_assign {u : Unit} {c : Checked} (valid : validateAssignmentTarget ctx x s = .ok u)
    (value : (locals.bridge M V).Sound id ctx s a c) (fewer : ∀ y, V y → U y) (relied : M x)
    (assigns : U x) (apart : locals.fixed x = true → ¬V x) :
    (locals.bridge M U).Sound id ctx s (Runs.seq a (writeLocal (assignedAgain locals) x))
      ⟨c.scopes.modify x Binding.markAssigned, true, c.breaks⟩ := by
  refine Meets.seq (Meets.onBreak (Meets.remember value) fun _ ⟨broke, _⟩ => broke) ?_
    (fun _ _ kept => Kept.mono kept fewer (Nat.le_refl _))
    fun _ _ _ first second => (Kept.mono first fewer (Nat.le_refl _)).trans second
  rintro τ out υ ⟨⟨-, agrees⟩, σ, start, kept⟩ path
  -- the cell is as it was when the target was validated
  have fresh : locals.fixed x = true → ∀ c, τ.get? x = some c →
      c.assigned = false ∧ ctx.loopDepth ≤ c.loopDepth := by
    intro isFixed c cell
    have related : Option.Rel (locals.Keeps ctx.loopDepth V x) (σ.get? x) (τ.get? x) :=
      Scopes.Rel.get? kept x
    rw [cell] at related
    cases old : σ.get? x with
    | none => rw [old] at related; cases related
    | some c₀ =>
      rw [old] at related
      cases related with
      | some keeps =>
        have before := validated_cell valid start relied isFixed c₀ old
        rw [keeps.keeps isFixed (.inr (apart isFixed)), keeps.sameDepth]
        exact before
  have allowed : ((τ.get? x).any (assignedAgain locals x)) = false := by
    cases cell : τ.get? x with
    | none => rfl
    | some c =>
      simp only [Option.any_some, assignedAgain]
      cases isFixed : locals.fixed x with
      | false => rfl
      | true => rw [(fresh isFixed c cell).1, Bool.and_false]
  simp only [writeLocal, allowed, Bool.false_eq_true, if_false] at path
  obtain ⟨rfl, rfl⟩ := path
  refine Meets.of_normal ⟨rfl, ?_⟩ ?_
  · exact Scopes.Rel.modify agrees fun _ _ _ _ f =>
      ⟨f.sameDepth, f.declared, f.mutability, by rintro - - ⟨⟩⟩
  · refine Scopes.Rel.modify_right (Kept.refl τ) fun c c' found found' k => ⟨k.sameDepth, ?_⟩
    obtain rfl : c = c' := Option.some_inj.1 (found.symm.trans found')
    intro isFixed may
    have inside := (fresh isFixed c found).2
    exact may.elim (fun outside => absurd outside (Nat.not_lt.2 inside)) fun other =>
      absurd assigns other

/-! ## Code that is checked ahead of its turn -/

/-- Some code was checked from `s`, but other code, which assigns `V`, was checked
after it and runs before it. The state reached then agrees with the scopes of
`last`. -/
theorem late_meets {p last : Checked} {uses : List (Use × LocalId)}
    (sound : ∀ M', (∀ x, Assigned uses x → M' x) →
      (locals.bridge M' (Assigned uses)).Sound id ctx s a p) (includes : Includes M U uses)
    (later : Scopes.Rel Binding.Later p.scopes last.scopes)
    (apart : ∀ x, locals.fixed x = true → Assigned uses x → ¬V x)
    (breaks : a.Quiet ∨ ∀ x, locals.fixed x = true → ¬V x) :
    Meets False (fun τ => (locals.bridge M U).Ends ctx.loopDepth last τ ∧
        ∃ σ, locals.Agrees ctx.loopDepth M σ s ∧ locals.Kept ctx V σ τ) a
      (fun υ => p.falls = true ∧ (locals.bridge M U).Ends ctx.loopDepth last υ)
      ((locals.bridge M U).Breaks ctx.loopDepth p) (locals.Kept ctx U) := by
  rintro τ out υ ⟨⟨reached, agrees⟩, σ, start, kept⟩ path
  -- the locals that the late code assigns are as they were when it was checked
  have here : locals.Agrees ctx.loopDepth (Assigned uses) τ s :=
    start.kept kept (fun x mem => (includes x mem).1) fun x mem isFixed =>
      .inr (apart x isFixed mem)
  obtain ⟨safe, normal, -, frame⟩ := sound (Assigned uses) (fun _ mem => mem) τ out υ here path
  refine ⟨safe, fun ended => ?_, fun broke => ?_,
    fun other => Kept.mono (frame other) (fun x mem => (includes x mem).2) (Nat.le_refl _)⟩
  · obtain ⟨falls, ahead⟩ := normal ended
    have own : locals.Agrees ctx.loopDepth (Assigned uses) υ last.scopes := Agrees.ahead ahead later
    have others : locals.Agrees ctx.loopDepth (fun x => M x ∧ ¬Assigned uses x) υ last.scopes :=
      Agrees.kept agrees (frame (by rw [ended]; exact nofun)) (fun _ m => m.1)
        fun _ m _ => .inr m.2
    refine ⟨falls, reached, (own.both others).fewer fun x m => ?_⟩
    by_cases mem : Assigned uses x
    · exact .inl mem
    · exact .inr ⟨m, mem⟩
  · obtain quiet | none := breaks
    · exact absurd broke (quiet τ out υ path).1
    · have all : locals.Agrees ctx.loopDepth M τ s :=
        start.kept kept (fun _ m => m) fun x _ isFixed => .inr (none x isFixed)
      exact (sound M (fun x mem => (includes x mem).1) τ out υ all path).2.2.1 broke

/-- Code that is checked first and runs last, after code that assigns `V`. -/
theorem late {p c : Checked} {uses : List (Use × LocalId)}
    (sound : ∀ M', (∀ x, Assigned uses x → M' x) →
      (locals.bridge M' (Assigned uses)).Sound id ctx s b p)
    (early : (locals.bridge M V).Sound id ctx p.scopes a c)
    (first : Scopes.Rel Binding.Later s p.scopes)
    (next : Scopes.Rel Binding.Later p.scopes c.scopes)
    (includes : Includes M U uses) (fewer : ∀ x, V x → U x)
    (apart : ∀ x, locals.fixed x = true → Assigned uses x → ¬V x)
    (breaks : b.Quiet ∨ ∀ x, locals.fixed x = true → ¬V x) :
    (locals.bridge M U).Late ctx s a b p c := by
  have ran := Meets.remember (early.ahead fun _ pre => Agrees.ahead pre first)
  refine ⟨_, Meets.onFrame (Meets.onBreak ran fun _ post => post.1)
    fun _ _ kept => Kept.mono kept fewer (Nat.le_refl _), ?_⟩
  exact Meets.onEnds (late_meets sound includes next apart breaks)
    (fun _ post => ⟨post.1, post.2.2⟩) fun _ post => post

/-- Loops leave the immutable locals around them alone. -/
theorem loops : (locals.bridge M U).Loops ctx where
  deeper _ _ pre := Agrees.deeper pre (Nat.le_succ _)
  lower _ _ _ _ start kept agrees := Agrees.lower start kept agrees
  again _ _ _ pre kept := Agrees.kept pre kept (fun _ m => m) fun _ _ _ => .inl (Nat.lt_succ_self _)
  depth_inLoop := rfl
  depth_loopBody := rfl
  inside _ _ kept := Kept.mono kept (fun _ m => m) (Nat.le_refl _)
  outside _ _ kept := Kept.mono kept (fun _ m => m) (Nat.le_succ _)

end

end Locals

end Ciel.Typeck
