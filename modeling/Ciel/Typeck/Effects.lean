import Ciel.Typeck.Flow

/-!
# What checking does to the scopes

Checking an expression leaves the same locals in scope, declared at the same
loop depths, and makes a local assigned only if the expression contains an
assignment of it. A statement may also add locals to the innermost scope; below
that scope the same holds.

These facts do not depend on any path. They make the scopes that meet at a join
comparable, and they bound the damage where the checker visits code earlier
than it runs. They are proved for any relation between the two ends of a check
that each single change of a binding keeps.
-/

namespace Ciel.Typeck

open Library (Scopes)

variable {first : Checked}

/-! ## Results of the checking monad -/

theorem bind_eq_ok {α β : Type} {c : Except Diagnostic α} {f : α → Except Diagnostic β} {b : β} :
    (c >>= f) = .ok b ↔ ∃ a, c = .ok a ∧ f a = .ok b := by
  cases c with
  | error e => exact ⟨nofun, nofun⟩
  | ok a => exact ⟨fun h => ⟨a, rfl, h⟩, fun ⟨_, same, h⟩ => by cases same; exact h⟩

theorem pure_eq_ok {α : Type} {a b : α} : (pure a : Except Diagnostic α) = .ok b ↔ a = b :=
  ⟨fun h => by cases h; rfl, fun h => by rw [h]; rfl⟩

theorem require_eq_ok {holds : Bool} {diagnostic : Diagnostic} {u : Unit} :
    require holds diagnostic = .ok u ↔ holds = true := by
  cases holds <;> simp [require]

variable {locals : Locals} {ctx : Context} {mode : Mode} {e : Expr} {x : LocalId}
variable {s s' : LocalScopes} {r r' : Checked}

theorem insert_eq {assigned : Bool} (h : insert locals ctx x assigned s = .ok s') :
    s' = s.declare x ⟨.ofAssigned assigned, (locals x).mutability, ctx.loopDepth⟩ := by
  simp only [insert] at h
  split at h
  · cases h
  · cases h
    rfl

/-- Consuming marks at most the local that the operand's value is. -/
theorem consumeAffineExpr_cases {allow : Bool}
    (h : consumeAffineExpr locals ctx allow e r = .ok r') :
    r' = r ∧ (∀ x, e.moveRoot = some x → r.falls = false ∨ (locals x).affine = false) ∨
    ∃ x, e.moveRoot = some x ∧ (locals x).affine = true ∧
      (allow = false → ∀ b, r.scopes.get? x = some b → ctx.loopDepth ≤ b.declaredLoopDepth) ∧
      r' = { r with scopes := r.scopes.modify x Binding.markMoved } := by
  simp only [consumeAffineExpr] at h
  split at h
  case h_1 root =>
    cases h
    exact .inl ⟨rfl, fun x found => by rw [root] at found; cases found⟩
  case h_2 x root =>
    split at h
    case isFalse plain =>
      cases h
      refine .inl ⟨rfl, fun y found => ?_⟩
      rw [root, Option.some_inj] at found
      subst found
      simpa [Decidable.or_iff_not_imp_left] using plain
    case isTrue moves =>
      split at h
      case isTrue => cases h
      case isFalse inside =>
        cases h
        refine .inr ⟨x, root, (Bool.and_eq_true_iff.1 moves).2, fun never b found => ?_, rfl⟩
        simpa [found, never] using inside

section

variable (h : consumeAs locals ctx mode e r = .ok r')

include h

theorem consumeAs_cases : r' = r ∧ (mode = .plain ∨
      ∀ x, e.moveRoot = some x → r.falls = false ∨ (locals x).affine = false) ∨
    ∃ x, mode ≠ .plain ∧ e.moveRoot = some x ∧ (locals x).affine = true ∧
      (ctx.returnLoopMove = false → ∀ b,
        r.scopes.get? x = some b → ctx.loopDepth ≤ b.declaredLoopDepth) ∧
      r' = { r with scopes := r.scopes.modify x Binding.markMoved } := by
  cases mode with
  | plain =>
    cases h
    exact .inl ⟨rfl, .inl rfl⟩
  | consumed =>
    obtain ⟨same, plain⟩ | ⟨x, root, affine, depth, eq⟩ := consumeAffineExpr_cases h
    · exact .inl ⟨same, .inr plain⟩
    · exact .inr ⟨x, nofun, root, affine, depth, eq⟩
  | taken =>
    obtain ⟨same, plain⟩ | ⟨x, root, affine, depth, eq⟩ := consumeAffineExpr_cases h
    · exact .inl ⟨same, .inr plain⟩
    · exact .inr ⟨x, nofun, root, affine, fun _ => depth rfl, eq⟩

theorem consumeAs_falls : r'.falls = r.falls := by
  obtain ⟨rfl, -⟩ | ⟨x, -, -, -, -, rfl⟩ := consumeAs_cases h <;> rfl

theorem consumeAs_breaks : r'.breaks = r.breaks := by
  obtain ⟨rfl, -⟩ | ⟨x, -, -, -, -, rfl⟩ := consumeAs_cases h <;> rfl

end

/-! ## Effects -/

/-- Every local assigned as a whole in these occurrences is one of `A`. -/
def AssignsOnly (A : LocalId → Prop) (uses : List (Use × LocalId)) : Prop :=
  ∀ u ∈ uses, u.1 = Use.assign → A u.2

theorem assignsOnly_append {A : LocalId → Prop} {l m : List (Use × LocalId)} :
    AssignsOnly A (l ++ m) ↔ AssignsOnly A l ∧ AssignsOnly A m := List.forall_mem_append

theorem assignsOnly_any (uses : List (Use × LocalId)) : AssignsOnly (fun _ => True) uses :=
  fun _ _ _ => trivial

/-- A relation between a binding before and after some checks, which each thing
that a check does to a binding keeps: it is merged with another outcome of the
same binding, marked as moved or, if it is one of `A`, marked as assigned. -/
structure Tracks (A : LocalId → Prop) (R : LocalId → Binding → Binding → Prop) : Prop where
  refl : ∀ x b, R x b b
  trans : ∀ x a b c, R x a b → R x b c → R x a c
  merge : ∀ x a b b', R x a b → R x a b' → R x a (b.merge b')
  moved : ∀ x a b, R x a b → R x a b.markMoved
  assigned : ∀ x a b, A x → R x a b → R x a b.markAssigned

/-- Checking went from `s` to `r` and changed the bindings only by `R`. -/
structure Drift (R : LocalId → Binding → Binding → Prop) (s : LocalScopes)
    (r : Checked) : Prop where
  scopes : Scopes.Rel R s r.scopes
  breaks : ∀ t ∈ r.breaks, Scopes.Rel R s t

section

variable {A : LocalId → Prop} {R : LocalId → Binding → Binding → Prop}

namespace Drift

theorem done (tracks : Tracks A R) (s : LocalScopes) : Drift R s (.done s) :=
  ⟨.refl tracks.refl s, nofun⟩

/-- Only the scopes and the breaks matter. -/
theorem congr (h : Drift R s r) {falls : Bool} : Drift R s { r with falls } :=
  ⟨h.scopes, h.breaks⟩

theorem pop (h : Drift R s r) : Drift R s.pop r.pop := by
  refine ⟨h.scopes.pop, fun t mem => ?_⟩
  obtain ⟨u, inside, rfl⟩ := List.mem_map.1 mem
  exact (h.breaks u inside).pop

/-- Breaks that leave later code, as seen from before. -/
theorem breaks_after (tracks : Tracks A R) (h : Drift R s first) (next : Drift R first.scopes r) :
    ∀ t ∈ first.breaks ++ r.breaks, Scopes.Rel R s t := by
  intro t mem
  obtain mem | mem := List.mem_append.1 mem
  · exact h.breaks t mem
  · exact h.scopes.trans (next.breaks t mem) tracks.trans

theorem scopes_after (tracks : Tracks A R) (h : Drift R s first) (next : Drift R first.scopes r) :
    Scopes.Rel R s r.scopes :=
  h.scopes.trans next.scopes tracks.trans

theorem andThen (tracks : Tracks A R) (h : Drift R s first) (next : Drift R first.scopes r) :
    Drift R s (first.andThen r) :=
  ⟨h.scopes_after (r := r) tracks next, h.breaks_after tracks next⟩

/-- The merge of the flows that reach a join. -/
theorem mergeReachableFlows (tracks : Tracks A R) {flows : List LocalScopes} {before : LocalScopes}
    (start : Scopes.Rel R s before)
    (all : ∀ t ∈ flows, Scopes.Rel R s t) :
    Scopes.Rel R s (before.mergeReachableFlows flows) := by
  cases flows with
  | nil => exact start
  | cons first rest =>
    exact Scopes.Rel.foldl_combine tracks.merge tracks.merge tracks.merge first rest all
      ⟨first, List.mem_cons_self, all first List.mem_cons_self⟩

/-- Several continuations of the same scopes: some are merged, and all of their
breaks leave the code. -/
theorem join (tracks : Tracks A R) {all ends : List Checked} {falls : Bool} (h : Drift R s first)
    (some : ∀ r ∈ ends, r ∈ all) (each : ∀ r ∈ all, Drift R first.scopes r) :
    Drift R s ⟨first.scopes.mergeReachableFlows (ends.map Checked.scopes), falls,
      first.breaks ++ all.flatMap Checked.breaks⟩ := by
  refine ⟨mergeReachableFlows tracks h.scopes fun t mem => ?_, fun t mem => ?_⟩
  · obtain ⟨r, inside, rfl⟩ := List.mem_map.1 mem
    exact h.scopes_after tracks (each r (some r inside))
  · obtain mem | mem := List.mem_append.1 mem
    · exact h.breaks t mem
    · obtain ⟨r, inside, broken⟩ := List.mem_flatMap.1 mem
      exact h.breaks_after tracks (each r inside) t (List.mem_append_right _ broken)

end Drift

theorem Checked.andThen_pop (a b : Checked) : (a.andThen b).pop = a.pop.andThen b.pop := by
  simp only [andThen, pop, List.map_append]

theorem consumeAs_drift (tracks : Tracks A R) (h : consumeAs locals ctx mode e r = .ok r')
    (start : Drift R s r) : Drift R s r' := by
  obtain ⟨rfl, -⟩ | ⟨x, -, -, -, -, rfl⟩ := consumeAs_cases h
  · exact start
  · exact ⟨start.scopes.modify_right fun _ _ _ _ g => tracks.moved _ _ _ g, start.breaks⟩

theorem insert_pop {assigned : Bool} (h : insert locals ctx x assigned s = .ok s') :
    s'.pop = s.pop := by
  rw [insert_eq h, Scopes.pop_declare]

theorem insertAll_pop {bindings : List LocalId} (h : insertAll locals ctx bindings s = .ok s') :
    s'.pop = s.pop := by
  induction bindings generalizing s with
  | nil => cases h; rfl
  | cons x rest ih =>
    simp only [insertAll, bind_eq_ok] at h
    obtain ⟨t, inserted, h⟩ := h
    rw [ih h, insert_pop inserted]

theorem moveCaptures_drift (tracks : Tracks A R) {allow : Bool} {captures : List LocalId}
    {t : LocalScopes} (h : moveCaptures locals ctx allow captures s = .ok s')
    (start : Scopes.Rel R t s) : Scopes.Rel R t s' := by
  induction captures generalizing s with
  | nil => cases h; exact start
  | cons x rest ih =>
    simp only [moveCaptures] at h
    split at h
    · split at h
      · cases h
      · split at h
        · cases h
        · exact ih h (start.modify_right fun _ _ _ _ g => tracks.moved _ _ _ g)
    · exact ih h start

theorem precheck_drift (tracks : Tracks A R) {check : Check} {n : Nat}
    (each : ∀ s r, check s = .ok r → Drift R s r) (h : precheck check n s = .ok r) :
    Drift R s r := by
  induction n generalizing s r with
  | zero => cases h; exact .done tracks s
  | succ n ih =>
    simp only [precheck, bind_eq_ok, pure_eq_ok] at h
    obtain ⟨first, checked, rest, next, rfl⟩ := h
    exact (each _ _ checked).andThen tracks (ih next)

/-! ## Expressions and statements -/

/-- The second operand of `&&` and `||` may or may not run. -/
theorem Drift.shortCircuit (tracks : Tracks A R) {l : Checked} {runs skipped : Bool}
    (first : Drift R s l)
    (next : Drift R l.scopes r) :
    Drift R s ⟨if runs then r.scopes else if skipped then l.scopes
      else l.scopes.mergeAssignedIntersection r.scopes, true, l.breaks ++ r.breaks⟩ := by
  refine ⟨?_, first.breaks_after tracks next⟩
  dsimp only
  split
  · exact first.scopes_after tracks next
  · split
    · exact first.scopes
    · exact first.scopes.combine (first.scopes_after tracks next) tracks.merge

/-- A scope around code that may declare locals in it. -/
theorem Drift.closeScope {inner : LocalScopes} (opened : inner.pop = s)
    (h : Drift R inner.pop r.pop) : Drift R s r.pop := opened ▸ h

mutual

theorem checkExpr_drift (tracks : Tracks A R) (e : Expr) {ctx : Context} {s : LocalScopes}
    {r : Checked}
    (only : AssignsOnly A e.uses) (h : checkExpr locals ctx e s = .ok r) : Drift R s r := by
  cases e <;> simp only [Expr.uses, assignsOnly_append] at only <;>
    try simp only [checkExpr, bind_eq_ok, pure_eq_ok, Except.ok.injEq] at h
  case constant | bool literal =>
    exact h ▸ .done tracks s
  case name x =>
    simp only [checkName] at h
    split at h
    · cases h
    · split at h
      · cases h
        exact .done tracks s
      · split at h <;> cases h
  case cast inner =>
    exact checkExpr_drift tracks inner only h
  case strict never args =>
    obtain ⟨a, checked, rfl⟩ := h
    exact (checkArgs_drift tracks args only checked).congr
  case and left right | or left right =>
    obtain ⟨l, first, r, next, rfl⟩ := h
    exact (checkExpr_drift tracks left only.1 first).shortCircuit tracks
      (checkExpr_drift tracks right only.2 next)
  case unsafeBlock body value =>
    obtain ⟨b, first, h⟩ := h
    have inner := (checkStmt_drift tracks body only.1 first).1
    split at h
    · simp only [bind_eq_ok, pure_eq_ok] at h
      obtain ⟨v, next, rfl⟩ := h
      rw [Checked.andThen_pop]
      exact inner.andThen tracks (checkExpr_drift tracks value only.2 next).pop
    · cases h
      exact inner
  case closure allow captures =>
    obtain ⟨-, -, t, moved, rfl⟩ := h
    exact ⟨moveCaptures_drift tracks moved (.refl tracks.refl s), nofun⟩
  case receiverCall prechecks interface mode before receiver after =>
    cases interface with
    | true =>
      simp only [checkExpr, bind_eq_ok, pure_eq_ok] at h
      obtain ⟨p, prechecked, i, checked, b, first, -, -, c, consumed, a, last, rfl⟩ := h
      have resolved := precheck_drift tracks
        (fun _ _ h => checkExpr_drift tracks receiver only.2.1.1 h) prechecked
      have early := resolved.andThen tracks (checkExpr_drift tracks receiver only.2.1.1 checked)
      have called := early.andThen tracks
        (consumeAs_drift tracks consumed (checkArgs_drift tracks before only.1 first).congr)
      have whole := called.andThen tracks (checkArgs_drift tracks after only.2.2 last)
      exact consumeAs_breaks consumed ▸ whole.congr
    | false =>
      simp only [checkExpr, bind_eq_ok, pure_eq_ok] at h
      obtain ⟨p, prechecked, b, first, i, checked, c, consumed, a, last, rfl⟩ := h
      have resolved := precheck_drift tracks
        (fun _ _ h => checkExpr_drift tracks receiver only.2.1.1 h) prechecked
      have called :=
        (resolved.andThen tracks (checkArgs_drift tracks before only.1 first)).andThen tracks
        (consumeAs_drift tracks consumed (checkExpr_drift tracks receiver only.2.1.1 checked))
      have whole := called.andThen tracks (checkArgs_drift tracks after only.2.2 last)
      exact consumeAs_breaks consumed ▸ whole.congr
  case question inner =>
    obtain ⟨i, checked, c, consumed, rfl⟩ := h
    exact (consumeAs_drift tracks consumed (checkExpr_drift tracks inner only.1 checked)).congr
  case select typed arms =>
    obtain ⟨-, -, f, futures, bodies, checked, rfl⟩ := h
    have first := checkFutures_drift tracks arms only futures
    have each := checkBodies_drift tracks arms only checked
    exact first.join tracks (fun _ mem => mem) each

theorem checkArgs_drift (tracks : Tracks A R) (args : Args) {ctx : Context} {s : LocalScopes}
    {r : Checked}
    (only : AssignsOnly A args.uses) (h : checkArgs locals ctx args s = .ok r) : Drift R s r := by
  cases args with
  | nil =>
    simp only [checkArgs, Except.ok.injEq] at h
    exact h ▸ .done tracks s
  | cons mode first rest =>
    simp only [Args.uses, assignsOnly_append] at only
    simp only [checkArgs, bind_eq_ok, pure_eq_ok] at h
    obtain ⟨f, checked, c, consumed, n, next, rfl⟩ := h
    exact (consumeAs_drift tracks consumed (checkExpr_drift tracks first only.1.1 checked)).andThen
      tracks
      (checkArgs_drift tracks rest only.2 next)

theorem checkFutures_drift (tracks : Tracks A R) (arms : Arms) {ctx : Context} {s : LocalScopes}
    {r : Checked}
    (only : AssignsOnly A arms.uses) (h : checkFutures locals ctx arms s = .ok r) :
    Drift R s r := by
  cases arms with
  | nil =>
    simp only [checkFutures, Except.ok.injEq] at h
    exact h ▸ .done tracks s
  | cons future binding body rest =>
    simp only [Arms.uses, assignsOnly_append] at only
    simp only [checkFutures, bind_eq_ok, pure_eq_ok] at h
    obtain ⟨f, checked, c, consumed, n, next, rfl⟩ := h
    exact (consumeAs_drift tracks consumed
      (checkExpr_drift tracks future only.1.1.1 checked)).andThen tracks
      (checkFutures_drift tracks rest only.2 next)

theorem checkBodies_drift (tracks : Tracks A R) (arms : Arms) {ctx : Context} {s : LocalScopes}
    {rs : List Checked}
    (only : AssignsOnly A arms.uses) (h : checkBodies locals ctx arms s = .ok rs) :
    ∀ r ∈ rs, Drift R s r := by
  cases arms with
  | nil =>
    simp only [checkBodies, Except.ok.injEq] at h
    exact h ▸ nofun
  | cons future binding body rest =>
    simp only [Arms.uses, assignsOnly_append] at only
    simp only [checkBodies, bind_eq_ok, pure_eq_ok] at h
    obtain ⟨bound, inserted, b, checked, c, consumed, n, next, rfl⟩ := h
    intro r mem
    obtain rfl | mem := List.mem_cons.1 mem
    · exact .closeScope (insert_pop inserted)
        (consumeAs_drift tracks consumed (checkExpr_drift tracks body only.1.2.1 checked)).pop
    · exact checkBodies_drift tracks rest only.2 next r mem

theorem checkStmt_drift (tracks : Tracks A R) (st : Stmt) {ctx : Context} {s : LocalScopes}
    {r : Checked}
    (only : AssignsOnly A st.uses) (h : checkStmt locals ctx st s = .ok r) :
    Drift R s.pop r.pop ∧ (st.isStep = true → Drift R s r) := by
  cases st <;> simp only [Stmt.uses, assignsOnly_append] at only <;>
    simp only [checkStmt, bind_eq_ok, pure_eq_ok, Except.ok.injEq] at h
  case skip =>
    exact h ▸ ⟨(Drift.done tracks s).pop, fun _ => .done tracks s⟩
  case seq first rest =>
    obtain ⟨f, checked, n, next, rfl⟩ := h
    rw [Checked.andThen_pop]
    exact ⟨(checkStmt_drift tracks first only.1 checked).1.andThen tracks
      (checkStmt_drift tracks rest only.2 next).1, nofun⟩
  case block body =>
    obtain ⟨b, checked, rfl⟩ := h
    exact ⟨(checkStmt_drift tracks body only checked).1.pop, nofun⟩
  case declare x =>
    obtain ⟨t, inserted, rfl⟩ := h
    refine ⟨⟨?_, nofun⟩, nofun⟩
    rw [Checked.pop, Checked.done, insert_pop inserted]
    exact .refl tracks.refl s.pop
  case init x value =>
    obtain ⟨v, checked, c, consumed, t, inserted, rfl⟩ := h
    have inner :=
      (consumeAs_drift tracks consumed (checkExpr_drift tracks value only.1 checked)).pop
    refine ⟨⟨?_, inner.breaks⟩, nofun⟩
    rw [Checked.pop, insert_pop inserted]
    exact inner.scopes
  case assign x value =>
    have may : A x := only.2 _ List.mem_cons_self rfl
    obtain ⟨-, -, v, checked, c, consumed, rfl⟩ := h
    have value := consumeAs_drift tracks consumed (checkExpr_drift tracks value only.1.1 checked)
    have whole : Drift R s ⟨c.scopes.modify x Binding.markAssigned, true, c.breaks⟩ :=
      ⟨value.scopes.modify_right fun _ _ _ _ g => tracks.assigned _ _ _ may g, value.breaks⟩
    exact ⟨whole.pop, fun _ => whole⟩
  case store place value =>
    obtain ⟨p, target, v, checked, c, consumed, rfl⟩ := h
    have whole := (checkExpr_drift tracks place only.2 target).andThen tracks
      (consumeAs_drift tracks consumed (checkExpr_drift tracks value only.1.1 checked))
    exact ⟨whole.congr.pop, fun _ => whole.congr⟩
  case ifElse cond thenBlock elseBlock =>
    obtain ⟨c, checked, t, first, e, second, rfl⟩ := h
    refine ⟨(Drift.join tracks (checkExpr_drift tracks cond only.1 checked)
      (fun r mem => (List.mem_filter.1 mem).1) fun r mem => ?_).pop, nofun⟩
    obtain rfl | mem := List.mem_cons.1 mem
    · exact (checkStmt_drift tracks thenBlock only.2.1 first).1
    · rw [List.mem_singleton.1 mem]
      exact (checkStmt_drift tracks elseBlock only.2.2 second).1
  case whileLoop cond body =>
    obtain ⟨c, checked, b, -, rfl⟩ := h
    exact ⟨(checkExpr_drift tracks cond only.1 checked).congr.pop, nofun⟩
  case forLoop init cond step body =>
    obtain ⟨-, -, i, first, c, checked, -, -, n, next, b, -, rfl⟩ := h
    have head := (checkStmt_drift tracks init only.1 first).1.andThen tracks
      (checkExpr_drift tracks cond only.2.1.1 checked).pop
    have all := head.breaks_after tracks (checkStmt_drift tracks step only.2.1.2 next).1
    refine ⟨Drift.pop ⟨head.scopes, ?_⟩, nofun⟩
    simpa only [Checked.andThen, Checked.pop, List.map_append, Scopes.pop_push] using all
  case switch scrutinee cases exhaustive hasDefault default =>
    obtain ⟨v, checked, e, consumed, cs, clauses, -, -, d, last, rfl⟩ := h
    have head := consumeAs_drift tracks consumed (checkExpr_drift tracks scrutinee only.1.1 checked)
    have each : ∀ r ∈ cs ++ [d.pop], Drift R e.scopes r := by
      intro r mem
      obtain mem | mem := List.mem_append.1 mem
      · exact checkCases_drift tracks cases only.2.1 clauses r mem
      · rw [List.mem_singleton.1 mem]
        exact (checkStmt_drift tracks default only.2.2 last).1
    refine ⟨Drift.pop ⟨Drift.mergeReachableFlows tracks head.scopes fun t mem => ?_,
      head.breaks⟩, nofun⟩
    obtain mem | mem := List.mem_append.1 mem
    · obtain ⟨r, inside, rfl⟩ := List.mem_map.1 mem
      have inside := (List.mem_filter.1 inside).1
      refine head.scopes_after tracks (each r ?_)
      split at inside
      · exact inside
      · exact List.mem_append_left _ inside
    · obtain ⟨r, inside, broken⟩ := List.mem_flatMap.1 mem
      refine head.breaks_after tracks (each r ?_) t (List.mem_append_right _ broken)
      split at inside
      · exact List.mem_append_left _ inside
      · exact inside
  case defer args =>
    obtain ⟨a, checked, rfl⟩ := h
    exact ⟨(checkArgs_drift tracks args only checked).congr.pop, nofun⟩
  case ret value =>
    obtain ⟨-, -, v, checked, c, consumed, -, -, rfl⟩ := h
    exact ⟨(consumeAs_drift tracks consumed
      (checkExpr_drift tracks value only.1 checked)).congr.pop,
      nofun⟩
  case breakStmt =>
    obtain ⟨-, -, rfl⟩ := h
    have self : Scopes.Rel R s s := (.refl tracks.refl s)
    refine ⟨Drift.pop ⟨self, fun t mem => ?_⟩, nofun⟩
    rw [List.mem_singleton.1 mem]
    exact self
  case continueStmt =>
    obtain ⟨-, -, rfl⟩ := h
    exact ⟨(Drift.done tracks s).congr.pop, nofun⟩
  case expr value =>
    obtain ⟨v, checked, consumed⟩ := h
    have whole := consumeAs_drift tracks consumed (checkExpr_drift tracks value only.1 checked)
    exact ⟨whole.pop, fun _ => whole⟩

theorem checkCases_drift (tracks : Tracks A R) (cases : Cases) {ctx : Context} {s : LocalScopes}
    {rs : List Checked}
    (only : AssignsOnly A cases.uses) (h : checkCases locals ctx cases s = .ok rs) :
    ∀ r ∈ rs, Drift R s r := by
  cases cases with
  | nil =>
    simp only [checkCases, Except.ok.injEq] at h
    exact h ▸ nofun
  | cons bindings body rest =>
    simp only [Cases.uses, assignsOnly_append] at only
    simp only [checkCases, bind_eq_ok, pure_eq_ok] at h
    obtain ⟨bound, inserted, b, checked, n, next, rfl⟩ := h
    intro r mem
    obtain rfl | mem := List.mem_cons.1 mem
    · exact .closeScope (insertAll_pop inserted) (checkStmt_drift tracks body only.1 checked).1
    · exact checkCases_drift tracks rest only.2 next r mem

end

end

/-! ## Which locals become assigned -/

/-- The same declaration, which became assigned only if `A` says it may. -/
def Binding.Gains (A : LocalId → Prop) (x : LocalId) (b b' : Binding) : Prop :=
  b'.declaredLoopDepth = b.declaredLoopDepth ∧
    (b'.initState = .assigned → b.initState = .assigned ∨ A x)

section

variable {A : LocalId → Prop}

theorem Binding.Gains.refl (x : LocalId) (b : Binding) : Gains A x b b := ⟨rfl, .inl⟩

theorem gains_tracks : Tracks A (Binding.Gains A) where
  refl := Binding.Gains.refl
  trans _ _ _ _ first second :=
    ⟨second.1.trans first.1, fun h => (second.2 h).elim first.2 .inr⟩
  merge _ _ _ _ left _ := ⟨left.1, fun h => left.2 (InitState.merge_eq_assigned.1 h).1⟩
  moved _ _ _ h := ⟨h.1, nofun⟩
  assigned _ _ _ may h := ⟨h.1, fun _ => .inr may⟩

end

end Ciel.Typeck
