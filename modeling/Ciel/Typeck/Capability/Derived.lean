import Ciel.Library.Search

/-!
# Derived implementations

A derived generic implementation waits on a queue until all declarations are known. Its
body may need other derived implementations, also itself, so the checker assumes the
whole queue, checks each implementation under this assumption, and starts again with the
ones that passed until nothing is rejected.

Checking a body asks for capabilities. One that a declared template gives is instantiated
and registered, and is found again from then on. Registered implementations stay when a
round has ended, also those that needed an implementation which was rejected.

What checking a body asks, and how a capability is proved from the visible templates and
the registered implementations, is the type checker's and is arbitrary here.
-/

namespace Ciel.Typeck.Capability

open Library (Ask)

/-- What the drain of the queue asks the type checker. -/
structure DeriveValidation (Pending Template Goal Diagnostic : Type) where
  template : Pending → Template
  /-- `check_generic_constraints` for the generics of the derived template -/
  checkGenericConstraints : Pending → Ask Goal Bool (List Diagnostic)
  /-- `check_function_body` for the derived body -/
  checkFunctionBody : Pending → Ask Goal Bool (List Diagnostic)
  /-- the derive is not valid under its generic constraints, with the first detail -/
  notValid : Pending → Diagnostic → Diagnostic
  /-- a capability is proved from the visible templates and the registered implementations -/
  proves : List Template → List Goal → Goal → Bool
  /-- `instantiate_generic_impl`: a declared template gives the capability -/
  instantiates : List Template → List Goal → Goal → Bool

structure DeriveState (Pending Template Goal Diagnostic : Type) where
  genericImpls : List Template
  impls : List Goal
  pendingDerivedGenericImpls : List Pending
  diagnostics : List Diagnostic

namespace DeriveValidation

variable {Pending Template Goal Diagnostic : Type} [DecidableEq Goal]
  (v : DeriveValidation Pending Template Goal Diagnostic)

/-- `find_or_instantiate_impl_by_full_args_optional_span`: an implementation is found, or
instantiated and registered, or the capability is proved in another way. -/
def findOrInstantiate (visible : List Template) (impls : List Goal) (goal : Goal) :
    Bool × List Goal :=
  if goal ∈ impls then (true, impls)
  else if v.instantiates visible impls goal then (true, goal :: impls)
  else (v.proves visible impls goal, impls)

/-- A check, with the implementations that it registers. -/
def runCheck {R : Type} (visible : List Template) : List Goal → Ask Goal Bool R → R × List Goal
  | impls, .done result => (result, impls)
  | impls, .ask goal next =>
    let (answer, impls) := v.findOrInstantiate visible impls goal
    runCheck visible impls (next answer)

/-- `validate_derived_template_constraints`, then `validate_derived_generic_impl_body`: the
diagnostics of the first that fails. -/
def validation (pending : Pending) : Ask Goal Bool (List Diagnostic) := do
  match ← v.checkGenericConstraints pending with
  | [] =>
    match ← v.checkFunctionBody pending with
    | [] => pure []
    | detail :: _ => pure [v.notValid pending detail]
  | failed => pure failed

/-- `visible_generic_impl_templates`. -/
def visibleGenericImplTemplates (genericImpls : List Template) (pending : List Pending) :
    List Template :=
  genericImpls ++ pending.map v.template

/-- One round: what passes, the diagnostics of the rest, and what is registered then. -/
def validateAll (visible : List Template) :
    List Goal → List Pending → List Pending × List Diagnostic × List Goal
  | impls, [] => ([], [], impls)
  | impls, pending :: candidates =>
    let (diagnostics, impls) := v.runCheck visible impls (v.validation pending)
    let (validated, rejected, impls) := validateAll visible impls candidates
    (if diagnostics.isEmpty then pending :: validated else validated, diagnostics ++ rejected,
      impls)

variable {v} {visible : List Template} {impls : List Goal} {candidates : List Pending}

theorem validateAll_sublist : (v.validateAll visible impls candidates).1.Sublist candidates := by
  induction candidates generalizing impls with
  | nil => exact List.Sublist.refl _
  | cons pending candidates ih =>
    rw [validateAll]
    dsimp only
    split
    · exact ih.cons_cons pending
    · exact ih.cons pending

theorem rejected_eq_nil : (v.validateAll visible impls candidates).2.1 = [] ↔
    (v.validateAll visible impls candidates).1 = candidates := by
  induction candidates generalizing impls with
  | nil => simp [validateAll]
  | cons pending candidates ih =>
    rw [validateAll]
    dsimp only
    split
    next empty => simp [List.isEmpty_iff.mp empty, ih]
    next failed =>
      have some : (v.runCheck visible impls (v.validation pending)).1 ≠ [] := by simpa using failed
      refine iff_of_false (fun none => some (List.append_eq_nil_iff.mp none).1) fun same => ?_
      have sublist : (v.validateAll visible (v.runCheck visible impls (v.validation pending)).2
        candidates).1.Sublist candidates := validateAll_sublist
      rw [same] at sublist
      exact Nat.lt_irrefl _ sublist.length_le

variable (v) (genericImpls : List Template)

/-- The rounds, with what is registered and the diagnostics of the ones before: what is
kept, the diagnostics of all that was rejected, and what is registered in the end. -/
def drainRounds (impls : List Goal) (candidates : List Pending)
    (rejectedDiagnostics : List Diagnostic) : List Pending × List Diagnostic × List Goal :=
  let round :=
    v.validateAll (v.visibleGenericImplTemplates genericImpls candidates) impls candidates
  if _done : round.2.1 = [] then (candidates, rejectedDiagnostics, round.2.2)
  else drainRounds round.2.2 round.1 (rejectedDiagnostics ++ round.2.1)
termination_by candidates.length
decreasing_by
  refine Nat.lt_of_le_of_ne validateAll_sublist.length_le fun same => _done ?_
  exact rejected_eq_nil.mpr (validateAll_sublist.eq_of_length same)

/-- `drain_pending_derived_generic_impls`. -/
def drainPendingDerivedGenericImpls (state : DeriveState Pending Template Goal Diagnostic) :
    DeriveState Pending Template Goal Diagnostic :=
  let (kept, rejected, impls) :=
    v.drainRounds state.genericImpls state.impls state.pendingDerivedGenericImpls []
  ⟨state.genericImpls ++ kept.map v.template, impls, [], state.diagnostics ++ rejected⟩

/-! ### What is kept -/

/-- A capability that a check finds. -/
def answers (visible : List Template) (impls : List Goal) (goal : Goal) : Bool :=
  (v.findOrInstantiate visible impls goal).1

/-- The implementation is valid if these capabilities are found. -/
def Valid (found : Goal → Bool) (pending : Pending) : Prop :=
  (v.validation pending).run (fun goal => some (found goal)) = some []

/-- More visible and registered implementations prove more. A capability that is proved
can be registered without proving more. Checks do not fail because more is proved. -/
structure Monotone : Prop where
  answers : ∀ visible more impls moreImpls goal, visible ⊆ more → impls ⊆ moreImpls →
    v.answers visible impls goal = true → v.answers more moreImpls goal = true
  register : ∀ visible impls registered goal, v.answers visible impls registered = true →
    v.answers visible (registered :: impls) goal = true → v.answers visible impls goal = true
  valid : ∀ pending (less more : Goal → Bool), (∀ goal, less goal = true → more goal = true) →
    v.Valid less pending → v.Valid more pending

/-- Each implementation is valid with only these assumed, and with the implementations that
were registered before. -/
def Consistent (impls : List Goal) (set : List Pending) : Prop :=
  ∀ pending ∈ set,
    v.Valid (v.answers (v.visibleGenericImplTemplates genericImpls set) impls) pending

variable {v genericImpls} {base registered : List Goal} {diagnostics : List Diagnostic}

theorem answers_of_mem {goal : Goal} (member : goal ∈ impls) :
    v.answers visible impls goal = true := by
  rw [answers, findOrInstantiate, if_pos member]

/-- What is registered was there before, or is proved from that. -/
def Follows (v : DeriveValidation Pending Template Goal Diagnostic) (visible : List Template)
    (base registered : List Goal) : Prop :=
  base ⊆ registered ∧ ∀ goal ∈ registered, v.answers visible base goal = true

namespace Monotone

variable (monotone : v.Monotone)
include monotone

/-- Registering what is proved proves no more. -/
theorem answers_eq (follows : v.Follows visible base registered) :
    v.answers visible registered = v.answers visible base := by
  funext goal
  rw [Bool.eq_iff_iff]
  refine ⟨fun found => ?_, monotone.answers _ _ _ _ goal (List.Subset.refl _) follows.1⟩
  have cut (extra : List Goal) (proved : ∀ goal ∈ extra, v.answers visible base goal = true)
      (found : v.answers visible (extra ++ base) goal = true) :
        v.answers visible base goal = true := by
    induction extra with
    | nil => exact found
    | cons first extra ih =>
      obtain ⟨here, later⟩ := List.forall_mem_cons.mp proved
      refine ih later (monotone.register _ _ first goal ?_ found)
      exact monotone.answers _ _ _ _ first (List.Subset.refl _) (List.subset_append_right _ _) here
  refine cut registered follows.2 ?_
  exact monotone.answers _ _ _ _ goal (List.Subset.refl _) (List.subset_append_left _ _) found

theorem findOrInstantiate_follows (follows : v.Follows visible base registered) (goal : Goal) :
    v.Follows visible base (v.findOrInstantiate visible registered goal).2 := by
  unfold findOrInstantiate
  split
  next => exact follows
  next =>
    split
    next given =>
      have found : v.answers visible registered goal = true := by
        rw [DeriveValidation.answers, findOrInstantiate, if_neg (by assumption), if_pos given]
      rw [monotone.answers_eq follows] at found
      exact ⟨List.subset_cons_of_subset _ follows.1, List.forall_mem_cons.mpr ⟨found, follows.2⟩⟩
    next => exact follows

/-- A check comes to the same result as if nothing were registered by it. -/
theorem runCheck_spec {R : Type} (follows : v.Follows visible base registered)
    (check : Ask Goal Bool R) :
    check.run (fun goal => some (v.answers visible base goal)) =
        some (v.runCheck visible registered check).1 ∧
      v.Follows visible base (v.runCheck visible registered check).2 := by
  induction check generalizing registered with
  | done result => exact ⟨rfl, follows⟩
  | ask goal next ih =>
    rw [Ask.run, Option.bind_some, ← monotone.answers_eq follows]
    obtain ⟨result, follows'⟩ := ih _ (monotone.findOrInstantiate_follows follows goal)
    rw [← monotone.answers_eq follows] at result
    exact ⟨result, follows'⟩

/-- A round keeps the implementations that are valid with what was registered before it. -/
theorem validateAll_spec (follows : v.Follows visible base registered) :
    (∀ pending, pending ∈ (v.validateAll visible registered candidates).1 ↔
      pending ∈ candidates ∧ v.Valid (v.answers visible base) pending) ∧
      v.Follows visible base (v.validateAll visible registered candidates).2.2 := by
  induction candidates generalizing registered with
  | nil => exact ⟨by simp [validateAll], follows⟩
  | cons first candidates ih =>
    obtain ⟨result, follows'⟩ := monotone.runCheck_spec follows (v.validation first)
    obtain ⟨members, last⟩ := ih follows'
    have valid : v.Valid (v.answers visible base) first ↔
        (v.runCheck visible registered (v.validation first)).1.isEmpty = true := by
      rw [Valid, result, Option.some.injEq, List.isEmpty_iff]
    rw [validateAll]
    refine ⟨fun pending => ?_, last⟩
    dsimp only
    split
    next passed =>
      rw [List.mem_cons, List.mem_cons, members]
      constructor
      · rintro (rfl | ⟨inside, isValid⟩)
        · exact ⟨.inl rfl, valid.mpr passed⟩
        · exact ⟨.inr inside, isValid⟩
      · rintro ⟨rfl | inside, isValid⟩
        · exact .inl rfl
        · exact .inr ⟨inside, isValid⟩
    next failed =>
      rw [members, List.mem_cons]
      constructor
      · exact fun ⟨inside, isValid⟩ => ⟨.inr inside, isValid⟩
      · rintro ⟨rfl | inside, isValid⟩
        · exact absurd (valid.mp isValid) failed
        · exact ⟨inside, isValid⟩

/-- A consistent set stays among the candidates in every round. -/
theorem drainRounds_greatest {set : List Pending} (consistent : v.Consistent genericImpls base set)
    (sub : set ⊆ candidates) (more : base ⊆ registered) :
    set ⊆ (v.drainRounds genericImpls registered candidates diagnostics).1 := by
  fun_induction drainRounds v genericImpls registered candidates diagnostics with
  | case1 => exact sub
  | case2 registered candidates diagnostics round _ ih =>
    have follows : v.Follows (v.visibleGenericImplTemplates genericImpls candidates) registered
        registered := ⟨List.Subset.refl _, fun _ => answers_of_mem⟩
    obtain ⟨members, last⟩ := monotone.validateAll_spec follows
    refine ih (fun pending member => (members pending).mpr ⟨sub member, ?_⟩)
      (List.Subset.trans more last.1)
    refine monotone.valid pending _ _ (fun goal => ?_) (consistent pending member)
    refine monotone.answers _ _ _ _ goal (List.append_subset.mpr ⟨List.subset_append_left _ _, ?_⟩)
      more
    exact List.subset_append_of_subset_right _ (List.map_subset _ sub)

theorem subset_drainRounds :
    registered ⊆ (v.drainRounds genericImpls registered candidates diagnostics).2.2 := by
  fun_induction drainRounds v genericImpls registered candidates diagnostics with
  | case1 => exact (monotone.validateAll_spec ⟨List.Subset.refl _, fun _ => answers_of_mem⟩).2.1
  | case2 =>
    rename_i later
    exact List.Subset.trans
      (monotone.validateAll_spec ⟨List.Subset.refl _, fun _ => answers_of_mem⟩).2.1 later

/-- What is kept is valid with what was registered in the end. -/
theorem drainRounds_valid {pending : Pending}
    (member : pending ∈ (v.drainRounds genericImpls registered candidates diagnostics).1) :
    v.Valid (v.answers (v.visibleGenericImplTemplates genericImpls
      (v.drainRounds genericImpls registered candidates diagnostics).1)
      (v.drainRounds genericImpls registered candidates diagnostics).2.2) pending := by
  fun_induction drainRounds v genericImpls registered candidates diagnostics with
  | case1 registered candidates diagnostics round done =>
    have follows : v.Follows (v.visibleGenericImplTemplates genericImpls candidates) registered
        registered := ⟨List.Subset.refl _, fun _ => answers_of_mem⟩
    obtain ⟨members, last⟩ := monotone.validateAll_spec follows
    rw [monotone.answers_eq last]
    exact ((members pending).mp ((rejected_eq_nil.mp done).symm ▸ member)).2
  | case2 _ _ _ _ _ ih => exact ih member

end Monotone

theorem drainRounds_sublist :
    (v.drainRounds genericImpls registered candidates diagnostics).1.Sublist candidates := by
  fun_induction drainRounds v genericImpls registered candidates diagnostics with
  | case1 => exact List.Sublist.refl _
  | case2 _ _ _ _ _ ih => exact ih.trans validateAll_sublist

/-- The implementations that the drain keeps of the queue. -/
def kept (v : DeriveValidation Pending Template Goal Diagnostic)
    (state : DeriveState Pending Template Goal Diagnostic) : List Pending :=
  (v.drainRounds state.genericImpls state.impls state.pendingDerivedGenericImpls []).1

/-- What has been registered during the drain is also given by the implementations that are
kept. -/
def NothingOutlived (v : DeriveValidation Pending Template Goal Diagnostic)
    (state : DeriveState Pending Template Goal Diagnostic) : Prop :=
  ∀ goal ∈ (v.drainPendingDerivedGenericImpls state).impls,
    v.answers (v.drainPendingDerivedGenericImpls state).genericImpls state.impls goal = true

/-- Capabilities and the implementations that give them: `w` is declared for `Wrap<T>` if `T`
has `b`, and `a` and `b` are derived for `Box<T>`. There is no implementation of `c`. -/
inductive Name
  | a | b | c | w
  deriving DecidableEq

/-- The body of the derived `a` needs `w` of a wrapped box, and that of `b` the given
capability. -/
def wrapping (needed : Name) : DeriveValidation Name Name Name String where
  template := id
  checkGenericConstraints _ := .done []
  checkFunctionBody
    | .a => .ask .w fun found => .done (if found then [] else ["no implementation of `w`"])
    | _ => .ask needed fun found => .done (if found then [] else ["no implementation"])
  notValid _ detail := "not valid under its generic constraints: " ++ detail
  proves visible _ goal := visible.contains goal && goal != .w
  instantiates visible impls goal :=
    visible.contains .w && (visible.contains .b || impls.contains .b) && goal == .w

theorem wrapping_answers {needed goal : Name} {visible impls : List Name} :
    (wrapping needed).answers visible impls goal = true ↔ goal ∈ impls ∨
      (.w ∈ visible ∧ (.b ∈ visible ∨ .b ∈ impls) ∧ goal = .w) ∨ (goal ∈ visible ∧ goal ≠ .w) := by
  unfold answers findOrInstantiate wrapping
  split
  · simp_all
  · split <;> simp_all

theorem wrapping_valid {needed pending : Name} {found : Name → Bool} :
    (wrapping needed).Valid found pending ↔
      found (if pending = .a then .w else needed) = true := by
  have asked (goal : Name) (text : String) : (wrapping needed).checkFunctionBody pending =
      .ask goal (fun given => .done (if given then [] else [text])) →
      ((wrapping needed).Valid found pending ↔ found goal = true) := by
    intro body
    have constraints : (wrapping needed).checkGenericConstraints pending = .done [] := rfl
    rw [Valid, validation, body, constraints]
    cases given : found goal <;> simp [bind, Ask.bind, Ask.run, pure, given]
  split
  next isA => exact asked .w "no implementation of `w`" (by rw [isA]; rfl)
  next other =>
    refine asked needed "no implementation" ?_
    cases pending <;> first | rfl | exact absurd rfl other

theorem wrapping_monotone (needed : Name) : (wrapping needed).Monotone where
  answers := by
    intro visible more impls moreImpls goal sub sub' found
    rw [wrapping_answers] at found ⊢
    exact found.imp (sub' ·) (Or.imp (fun ⟨w, b, isW⟩ => ⟨sub w, b.imp (sub ·) (sub' ·), isW⟩)
      (And.imp_left (sub ·)))
  register := by
    intro visible impls registered goal given found
    rw [wrapping_answers] at given found ⊢
    simp only [List.mem_cons] at found
    grind
  valid := by
    intro pending less more le valid
    rw [wrapping_valid] at valid ⊢
    exact le _ valid

end DeriveValidation

end Ciel.Typeck.Capability
