import Ciel.Typeck.Agreement
import Ciel.Typeck.Bridge

/-!
# The soundness judgement and its rules

`Sound` relates a piece of code and a check of it: every path that starts in a
store that agrees with the scopes before the check stays clear of the watched
cells and ends in a store that agrees with the scopes the check arrived at, at
the end with those of the result, at a break with those of one of the recorded
breaks. The rules for the ways in which code is put together are those of any
`Bridge`; the ones for moves, for reads and for code that the checker visits ahead
of its turn are proved here.
-/

namespace Ciel.Typeck

open Library (Scopes Outcome Runs)
open Library.Runs (Meets)

variable {A V : LocalId → Prop} {captures : List LocalId} {t : LocalScopes} {B : Store → Prop}

namespace Watch

variable (w : Watch)

/-- In a returned value, nothing fragile moves unless the value is calm. -/
def Settled (ctx : Context) (U : LocalId → Prop) (calm : Bool) : Prop :=
  ctx.returnLoopMove = true → calm = true ∨ w.Sturdy U

variable {w} {locals : Locals} {view : Store → Store} {ctx : Context} {M U : LocalId → Prop}
variable {s : LocalScopes} {a b : Runs Store} {r r' : Checked} {e : Expr} {mode : Mode}

theorem settled_and {x y : Bool} :
    w.Settled ctx U (x && y) ↔ w.Settled ctx U x ∧ w.Settled ctx U y := by
  simp only [Settled, Bool.and_eq_true, and_or_right, forall_and]

/-- Code that is not calm in a returned value moves nothing fragile, in any context. -/
theorem Settled.sturdy (h : w.Settled ctx U false) (returning : ctx.returnLoopMove = true) :
    w.Sturdy U := (h returning).resolve_left nofun

theorem Settled.shrink {U' : LocalId → Prop} {calm : Bool} (h : w.Settled ctx U calm)
    (fewer : ∀ x, U' x → U x) : w.Settled ctx U' calm :=
  fun ret => (h ret).imp_right fun sturdy x moved => sturdy x (fewer x moved)

/-- Watched reads as a comparison of scopes and stores. -/
def bridge (w : Watch) (A M U : LocalId → Prop) : Bridge where
  Faults := False
  depth := Context.loopDepth
  Drifts := Binding.Gains A
  Agrees depth := w.Agrees depth M
  Kept ctx := w.Kept ctx U
  drifts_refl := Binding.Gains.refl
  push := Agrees.push
  pop := Agrees.pop
  merge := Agrees.merge
  kept_refl _ := Kept.refl
  kept_trans := Kept.trans
  kept_pop := Scopes.Rel.pop

/-- The bridge for code that may assign anything. -/
abbrev plainBridge (w : Watch) (M U : LocalId → Prop) : Bridge := w.bridge (fun _ => True) M U

theorem moveUses_moved {x : LocalId} (root : e.moveRoot = some x) (moves : mode ≠ .plain)
    (covers : w.Covers M U (e.moveUses mode)) : U x := by
  apply covers.moved
  cases mode with
  | plain => exact absurd rfl moves
  | consumed | taken => simp [Moved, Expr.moveUses, root]

/-- The value of a checked operand is handed over. -/
theorem handOver_meets (consumed : consumeAs locals ctx mode e r = .ok r')
    (covers : w.Covers M U (e.moveUses mode)) :
    Meets False ((w.plainBridge M U).Ends ctx.loopDepth r) (handOver locals mode e)
      ((w.plainBridge M U).Ends ctx.loopDepth r') B (w.Kept ctx U) := by
  obtain ⟨rfl, unmoved⟩ | ⟨x, moves, root, affine, outside, rfl⟩ := consumeAs_cases consumed
  · simp only [handOver]
    split
    · exact Meets.skip (fun _ pre => pre) Kept.refl
    · exact Meets.skip (fun _ pre => pre) Kept.refl
    case h_3 x notPlain root =>
      refine Meets.update fun σ pre => ?_
      have copied : (locals x).affine = false := by
        obtain rfl | unmoved := unmoved
        · exact absurd rfl notPlain
        · exact (unmoved x root).resolve_left (by rw [pre.1]; rintro ⟨⟩)
      rw [consumeLocal, copied]
      exact ⟨pre, Kept.refl σ⟩
  · have update : handOver locals mode e = Runs.update (consumeLocal locals x) := by
      cases mode with
      | plain => exact absurd rfl moves
      | consumed | taken => simp only [handOver, root]
    rw [update]
    refine Meets.update fun σ pre => ?_
    rw [consumeLocal, affine]
    obtain ⟨agrees, kept⟩ := pre.2.consume (moveUses_moved root moves covers) outside
    exact ⟨⟨pre.1, agrees⟩, kept⟩

theorem readLocal_sound {x : LocalId} (checked : checkName locals x s = .ok r) (mentioned : M x) :
    (w.plainBridge M U).Sound view ctx s (readLocal w.bad x) r := by
  rintro σ out τ agrees ⟨rfl, rfl⟩
  simp only [checkName] at checked
  split at checked
  · cases checked
  · rename_i b found
    split at checked
    · rename_i assigned
      cases checked
      have related := Scopes.Rel.get? agrees x
      rw [found] at related
      cases cell : τ.get? x with
      | none => rw [cell] at related; cases related
      | some c =>
        rw [cell] at related
        cases related with
        | some fits =>
          have ok := fits.promise mentioned assigned
          simp only [Option.all_some, ok]
          exact Meets.of_normal ⟨rfl, agrees⟩ (Kept.refl (view τ))
    · split at checked <;> cases checked

theorem checkCaptures_assigned {u : Unit} (h : checkCaptures s captures = .ok u) :
    ∀ x ∈ captures, ∀ b, s.get? x = some b → b.initState = .assigned := by
  induction captures with
  | nil => exact nofun
  | cons y rest ih =>
    simp only [checkCaptures] at h
    split at h
    · cases h
    · rename_i assigned
      intro x mem b found
      obtain rfl | mem := List.mem_cons.1 mem
      · simpa [found] using assigned
      · exact ih h x mem b found

theorem readCaptures_meets {u : Unit} (checked : checkCaptures s captures = .ok u)
    (mentioned : ∀ x ∈ captures, M x) :
    Meets False (w.Agrees ctx.loopDepth M · s) (readCaptures w.bad captures)
      (w.Agrees ctx.loopDepth M · s) B (w.Kept ctx U) := by
  rintro σ out τ agrees ⟨rfl, rfl⟩
  have readable : (captures.any fun x => (τ.get? x).any (w.bad x)) = false := by
    rw [List.any_eq_false]
    intro x mem
    have related := Scopes.Rel.get? agrees x
    cases cell : τ.get? x with
    | none => exact nofun
    | some c =>
      rw [cell] at related
      cases binding : s.get? x with
      | none => rw [binding] at related; cases related
      | some b =>
        rw [binding] at related
        cases related with
        | some fits =>
          have ok := fits.promise (mentioned x mem)
            (checkCaptures_assigned checked x mem b binding)
          simp [ok]
  rw [readable]
  exact Meets.of_normal agrees (Kept.refl τ)

theorem moveCaptures_keeps {allow : Bool} {σ : Store} (agrees : w.Agrees ctx.loopDepth M σ s)
    (moved : ∀ x ∈ captures, U x) (h : moveCaptures locals ctx allow captures s = .ok t) :
    w.Agrees ctx.loopDepth M (consumeAll locals captures σ) t ∧
      w.Kept ctx U σ (consumeAll locals captures σ) := by
  induction captures generalizing s σ with
  | nil =>
    cases h
    exact ⟨agrees, Kept.refl σ⟩
  | cons x rest ih =>
    have movedRest : ∀ y ∈ rest, U y := fun y mem => moved y (List.mem_cons_of_mem x mem)
    simp only [moveCaptures] at h
    simp only [consumeAll, consumeLocal]
    split at h
    · rename_i affine
      rw [affine]
      split at h
      · cases h
      · split at h
        · cases h
        · rename_i inside
          have step : _ ∧ w.Kept ctx U σ _ := agrees.consume (moved x List.mem_cons_self)
            (fun _ b found => by simpa [found] using inside)
          obtain ⟨final, keptRest⟩ := ih step.1 movedRest h
          exact ⟨final, step.2.trans keptRest⟩
    · rename_i copied
      rw [if_neg copied]
      exact ih agrees movedRest h

/-- A loop keeps what agreed around it, unless it moves something fragile in a
returned value. -/
theorem loops (settled : ctx.returnLoopMove = true → w.Sturdy U) :
    (w.plainBridge M U).Loops ctx where
  deeper _ _ pre := Agrees.mono pre (fun _ m => m) (Nat.le_succ _)
  lower _ _ _ _ start kept agrees := Agrees.lower start kept agrees
  again _ _ _ pre kept := Agrees.kept_loop pre kept (Nat.lt_succ_self _) settled
  depth_inLoop := rfl
  depth_loopBody := rfl
  inside _ _ kept := Kept.mono kept (fun _ m => m) id (Nat.le_refl _)
  outside _ _ kept := Kept.mono kept (fun _ m => m) id (Nat.le_succ _)

/-! ## Code that is checked ahead of its turn -/

/-- The locals an occurrence list mentions. -/
def Mentioned (uses : List (Use × LocalId)) (x : LocalId) : Prop := (Use.mention, x) ∈ uses

/-- Some code was checked from `s`, but other code, which moves `V`, runs in
between. The state reached then agrees with the scopes of `last`. If the code can
break out with the scopes recorded ahead, nothing fragile may have moved. -/
theorem ahead_meets {p last : Checked} {uses : List (Use × LocalId)}
    (sound : ∀ M', w.Covers M' (Moved uses) uses →
      (w.plainBridge M' (Moved uses)).Sound id ctx s a p)
    (covers : w.Covers M U uses) (sturdy : w.Sturdy (Moved uses))
    (apart : ∀ x, Mentioned uses x → w.fragile x = true → ¬V x) (breaks : a.Quiet ∨ w.Sturdy V) :
    Meets False (fun τ => (w.plainBridge M U).Ends ctx.loopDepth last τ ∧
        ∃ σ, w.Agrees ctx.loopDepth M σ s ∧ w.Kept ctx V σ τ) a
      (fun υ => p.falls = true ∧ (w.plainBridge M U).Ends ctx.loopDepth last υ)
      ((w.plainBridge M U).Breaks ctx.loopDepth p) (w.Kept ctx U) := by
  rintro τ out υ ⟨⟨reached, agrees⟩, σ, start, kept⟩ path
  obtain quiet | unmoved := breaks
  · -- only what the code mentions has to have survived
    have here : w.Agrees ctx.loopDepth (Mentioned uses) τ s := by
      refine start.kept kept (fun x mentioned => (covers _ mentioned).1 rfl) fun x relied => .inr ?_
      rintro ⟨fragile, moved⟩
      obtain mentioned | steady := relied
      · exact apart x mentioned fragile moved
      · rw [w.steady_sturdy x steady] at fragile
        cases fragile
    have self : w.Covers (Mentioned uses) (Moved uses) uses := fun u mem =>
      ⟨fun kind => by obtain ⟨_, x⟩ := u; cases kind; exact mem, (covers.tight u mem).2⟩
    obtain ⟨safe, normal, -, frame⟩ := sound _ self τ out υ here path
    refine ⟨safe, fun e => ?_, fun e => absurd e (quiet τ out υ path).1,
      fun e => (frame e).sturdy sturdy⟩
    exact ⟨(normal e).1, reached, agrees.kept_sturdy (frame (by rw [e]; exact nofun)) sturdy⟩
  · have here := start.kept_sturdy kept unmoved
    obtain ⟨safe, normal, breaks, frame⟩ := sound M covers.tight τ out υ here path
    refine ⟨safe, fun e => ?_, breaks, fun e => (frame e).sturdy sturdy⟩
    exact ⟨(normal e).1, reached, agrees.kept_sturdy (frame (by rw [e]; exact nofun)) sturdy⟩

/-- Code that is checked first and runs last, after code that moves `V`. -/
theorem late {p c : Checked} {uses : List (Use × LocalId)}
    (sound : ∀ M', w.Covers M' (Moved uses) uses →
      (w.plainBridge M' (Moved uses)).Sound id ctx s b p)
    (early : (w.plainBridge M V).Sound id ctx p.scopes a c)
    (gains : Scopes.Rel (Binding.Gains A) s p.scopes)
    (steady : ∀ x, A x → w.steady x = true) (covers : w.Covers M U uses)
    (moves : ∀ x, V x → U x) (sturdy : w.Sturdy (Moved uses))
    (apart : ∀ x, Mentioned uses x → w.fragile x = true → ¬V x) (breaks : b.Quiet ∨ w.Sturdy V) :
    (w.plainBridge M U).Late ctx s a b p c := by
  have first := Meets.remember (Meets.onStart early
    fun σ (pre : w.Agrees ctx.loopDepth M σ s) => pre.ahead gains steady)
  refine ⟨_, Meets.onFrame (Meets.onBreak first fun _ post => post.1)
    fun _ _ kept => kept.weaken moves, ?_⟩
  exact Meets.onEnds (ahead_meets sound covers sturdy apart breaks)
    (fun _ post => ⟨post.1, post.2.2⟩) fun _ post => post

/-- A returned value was checked with the permission to move out of loops, which
is harmless if it cannot jump back or moves nothing fragile. -/
theorem Sound.returned (h : (w.plainBridge M V).Sound id ctx.returning s a r)
    (final : a.Quiet ∨ w.Sturdy V) :
    (w.plainBridge M U).Sound id ctx s (Runs.seq a (Runs.jump .returns))
    { r with falls := false } := by
  rintro σ out τ start (⟨υ, -, rfl, -⟩ | ⟨leaves, path⟩)
  · exact ⟨nofun, nofun, nofun, fun other => absurd rfl other⟩
  · obtain ⟨safe, -, breaks, frame⟩ := h σ out τ start path
    refine ⟨safe, fun e => absurd e leaves, breaks, fun other => ?_⟩
    obtain quiet | sturdy := final
    · obtain ⟨notBreaks, notContinues⟩ := quiet σ out τ path
      cases out <;> contradiction
    · exact (frame other).sturdy sturdy

end Watch

end Ciel.Typeck
