import Ciel.Typeck.DefiniteAssignment

/-!
# Where control can come out

The checker computes for every statement whether control can fall through it,
and collects the scopes at the breaks that leave it. Both are compared here with
the paths of the language: a path can end normally only if the checker says so,
and can break only if the checker recorded a break. Nothing else about a path
matters, so the stores are arbitrary, and so are the choice of the reads that
fault and the loop depth that the paths record.

The break of a switch is caught by the switch, the one of a loop by the loop. For
one in the condition or in the step of a loop the checker records a break of the code
around, and takes the loop itself to go on; without such breaks it is right.
-/

namespace Ciel.Typeck

open Library (Scopes Outcome Runs)
open Library.Runs (Meets)

variable {locals : Locals} {bad : LocalId → Cell → Bool}

/-- Any scopes go with any store. The paths record the depth `i.2` where the checker
is inside `i.1` loops. -/
def exitBridge (i : Nat × Nat) : Bridge where
  Faults := True
  depth ctx := i.2 + (ctx.loopDepth - i.1)
  Drifts _ _ _ := True
  Agrees _ _ _ := True
  Kept _ _ _ := True
  drifts_refl _ _ := trivial
  push _ := trivial
  pop _ := trivial
  merge _ _ _ := trivial
  kept_refl _ _ := trivial
  kept_trans _ _ := trivial
  kept_pop _ := trivial

/-- The code is inside the loops of the index. -/
def Inside (i : Nat × Nat) (ctx : Context) (_ : Code) : Prop := i.1 ≤ ctx.loopDepth

theorem inside_parts {i : Nat × Nat} {ctx : Context} {code : Code} (h : Inside i ctx code) :
    code.Each (Inside i) ctx := by
  have here : i.1 ≤ ctx.loopDepth := h
  have deeper : i.1 ≤ ctx.loopDepth + 1 := Nat.le_succ_of_le h
  cases code with
  | expr e => cases e <;> simp_all [Code.Each, Inside]
  | operand mode e => exact h
  | args operands => cases operands <;> simp_all [Code.Each, Inside]
  | arms branches => cases branches <;> simp_all [Code.Each, Inside]
  | stmt st =>
    cases st <;>
      simp_all [Code.Each, Inside, Context.inLoop, Context.loopBody, Context.switchBody]
  | cases clauses => cases clauses <;> simp_all [Code.Each, Inside]

/-- Code that is checked ahead of its turn still comes out only where the check says. -/
theorem exit_late {i : Nat × Nat} {ctx : Context} {s : LocalScopes} {a b : Runs Store}
    {p c : Checked}
    (late : (exitBridge i).Sound id ctx s b p) (early : (exitBridge i).Sound id ctx p.scopes a c) :
    (exitBridge i).Late ctx s a b p c :=
  ⟨fun _ => True, Meets.onEnds early (fun _ _ => trivial) fun _ post => post, late⟩

/-- Control comes out only where the checker foresees it. -/
def exits (locals : Locals) (bad : LocalId → Cell → Bool) :
    Discipline locals bad (fun _ _ => false) where
  Index := Nat × Nat
  bridge := exitBridge
  Okay := Inside
  parts := inside_parts
  tracks _ := ⟨fun _ _ => trivial, fun _ _ _ _ _ _ => trivial, fun _ _ _ _ _ _ => trivial,
    fun _ _ _ _ => trivial, fun _ _ _ _ _ => trivial⟩
  depth_switch _ _ := rfl
  kept_switch _ := trivial
  loops {i ctx _} inside _ := by
    have next : ctx.loopDepth + 1 - i.1 = ctx.loopDepth - i.1 + 1 := Nat.succ_sub inside
    exact ⟨fun _ _ _ => trivial, fun _ _ _ _ _ _ _ => trivial, fun _ _ _ _ _ => trivial,
      congrArg (i.2 + ·) next, congrArg (i.2 + ·) next, fun _ _ _ => trivial, fun _ _ _ => trivial⟩
  bind _ _ := trivial
  handOver := by
    rintro i ctx mode e r r' B - consumed σ out τ ⟨falls, -⟩ path
    have ended : out = .normal := by
      obtain skipped | ⟨x, moved⟩ := @handOver_cases locals mode e
      · exact (skipped ▸ path).1
      · exact (moved ▸ path).1
    subst ended
    exact Meets.of_normal ⟨(consumeAs_falls consumed).trans falls, trivial⟩ trivial
  name := by
    rintro i ctx x s r - checked σ out τ - ⟨-, rfl⟩
    have falls : r.falls = true := by
      simp only [checkName] at checked
      split at checked
      · cases checked
      · split at checked
        · cases checked; rfl
        · split at checked <;> cases checked
    refine ⟨fun _ => trivial, fun _ => ⟨falls, trivial⟩, fun broke => ?_, fun _ => trivial⟩
    split at broke <;> cases broke
  closure := by
    intro i ctx allow captures s u t _ _ _
    have reads : Meets True (fun _ : Store => True) (readCaptures bad captures) (fun _ => True)
        ((exitBridge i).Breaks ctx.loopDepth (.done t)) ((exitBridge i).Kept ctx) := by
      rintro σ out τ - ⟨-, rfl⟩
      refine ⟨fun _ => trivial, fun _ => trivial, fun broke => ?_, fun _ => trivial⟩
      split at broke <;> cases broke
    exact Meets.seq reads (Meets.update fun _ _ => ⟨⟨rfl, trivial⟩, trivial⟩)
      (fun _ _ kept => kept) fun _ _ _ => (exitBridge i).kept_trans
  declare _ _ _ := trivial
  assign := by
    intro i ctx x value u s v c inside sound _ checked consumed
    refine Meets.seq (sound i inside s v c checked consumed) ?_ (fun _ _ kept => kept)
      fun _ _ _ => (exitBridge i).kept_trans
    rw [writeLocal_unbarred]
    exact Meets.update fun _ _ => ⟨⟨rfl, trivial⟩, trivial⟩
  ret := by
    intro i ctx value s v c inside sound checked consumed
    have operand : (exitBridge i).Sound id ctx s _ c := sound i inside s v c checked consumed
    exact Meets.seq operand (Meets.jump_returns (K := (exitBridge i).Kept ctx))
      (fun _ _ kept => kept) fun _ _ _ => (exitBridge i).kept_trans
  step _ _ _ _ := trivial
  resolve _ _ _ := trivial
  receiver {i ctx _ _ _ _ _ s p b} inside sound args checked first :=
    exit_late (sound i inside s p checked) (args i inside p.scopes b first)
  store {i ctx _ _ s p v c} inside sound value target checked consumed :=
    exit_late (sound i inside s p target) (value i inside p.scopes v c checked consumed)

/-- A path falls through a statement or breaks out of it only if the checker foresees
that. -/
theorem checkStmt_foresees (st : Stmt) (ctx : Context) (depth : Nat) {s : LocalScopes} {r : Checked}
    (h : checkStmt locals ctx st s = .ok r) (heads : st.calmHeads = true) {σ σ' : Store}
    {out : Outcome}
    (path : runStmt locals bad depth st σ out σ') :
    (out = .normal → r.falls = true) ∧ (out = .breaks → r.breaks ≠ []) := by
  let i : (exits locals bad).Index := (ctx.loopDepth, depth)
  have inside : Inside i ctx (.stmt st) := Nat.le_refl _
  have same : (exitBridge i).depth ctx = depth := by simp [exitBridge, i]
  have sound := (Discipline.stmt_holds (D := exits locals bad) st ⟨inside, heads⟩ s r h).1
  rw [show ((exits locals bad).bridge i).depth ctx = depth from same, guardedStmt_unbarred] at sound
  obtain ⟨-, falls, breaks, -⟩ := sound σ out σ' trivial path
  exact ⟨fun ended => (falls ended).1, fun broke => have ⟨_, mem, _⟩ := breaks broke
    List.ne_nil_of_mem mem⟩

/-- Where no condition and no step of a loop jumps, no path reaches the end of an
accepted body that has to return, whatever its parameters hold; and no path falls
through a statement of which the checker says that it cannot, wherever the statement
stands and from whatever store. -/
theorem no_path_falls_through (locals : Locals) (bad : LocalId → Cell → Bool) :
    (∀ kind params body r, kind ≠ .erased → checkFunctionBody locals kind params body = .ok r →
      body.calmHeads = true → ¬runFunctionBody locals bad params body .normal) ∧
    (∀ ctx st s r, checkStmt locals ctx st s = .ok r → r.falls = false → st.calmHeads = true →
      ∀ depth σ σ', ¬runStmt locals bad depth st σ .normal σ') := by
  have stuck : ∀ ctx st s r, checkStmt locals ctx st s = .ok r → r.falls = false →
      st.calmHeads = true → ∀ depth σ σ', ¬runStmt locals bad depth st σ .normal σ' := by
    intro ctx st s r checked stuck heads depth σ σ' path
    have falls := (checkStmt_foresees st ctx depth checked heads path).1 rfl
    rw [stuck] at falls
    cases falls
  refine ⟨?_, stuck⟩
  rintro kind params body r nonVoid accepted heads ⟨σ', path⟩
  simp only [checkFunctionBody, bind_eq_ok, pure_eq_ok, require_eq_ok] at accepted
  obtain ⟨s, -, c, checked, -, returns, rfl⟩ := accepted
  refine stuck _ _ _ c checked ?_ heads 0 _ σ' path
  simpa [nonVoid] using returns

/-- `while (true) { switch (f()) { case A: break; case B: return 1; } }`: the break
only leaves the switch, so the loop is left by the return alone. -/
def breakInSwitch : Stmt :=
  .whileLoop (.bool true) (.switch .callNone
    (.cons [] .breakStmt (.cons [] (.ret .constant) .nil)) true false .skip)

theorem no_path_falls_through_breakInSwitch :
    (∃ r, checkFunctionBody plainLocals .value [] breakInSwitch = .ok r) ∧
      ¬runFunctionBody plainLocals (fun _ _ => false) [] breakInSwitch .normal := by
  obtain ⟨r, accepted⟩ : ∃ r, checkFunctionBody plainLocals .value [] breakInSwitch = .ok r :=
    ⟨_, rfl⟩
  exact ⟨⟨r, accepted⟩,
    (no_path_falls_through plainLocals _).1 .value [] breakInSwitch r (by decide) accepted
      (by decide)⟩

/-- `for (;; unsafe { break; }) { }`. -/
def breakInStep : Stmt :=
  .forLoop .skip (.bool true) (.expr (.unsafeBlock .breakStmt .constant)) .skip

/-- In the accepted body `while (c()) { for (;; unsafe { break; }) { } } return 1;` the
inner loop is said not to fall through, and its step ends it. -/
theorem breakInStep_falls_through :
    (∃ r, checkFunctionBody plainLocals .value []
      (.seq (.whileLoop .callNone breakInStep) (.ret .constant)) = .ok r) ∧
    (∃ r, checkStmt plainLocals (Context.function .value).loopBody breakInStep [[], []] = .ok r ∧
      r.falls = false) ∧
    runStmt plainLocals (fun _ _ => false) 1 breakInStep [[], []] .normal [[], []] := by
  refine ⟨⟨_, rfl⟩, ⟨_, rfl, rfl⟩, [[], [], []], .inl ⟨_, ⟨rfl, rfl⟩, ?_⟩, rfl⟩
  have step : runStmt plainLocals (fun _ _ => false) 2 (.expr (.unsafeBlock .breakStmt .constant))
      [[], [], []] .breaks [[], [], []] :=
    .inr ⟨nofun, _, .inr ⟨nofun, rfl, rfl⟩, rfl⟩
  exact .stepLeaves (.body ⟨rfl, rfl⟩ rfl ⟨_, ⟨rfl, rfl⟩, rfl⟩ rfl) step rfl

end Ciel.Typeck
