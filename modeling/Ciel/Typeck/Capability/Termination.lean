import Ciel.Typeck.Capability.Resolve
import Ciel.Typeck.Capability.Blanket

/-!
# Does the search end?

The guard stops a search that comes back to a query in progress. It does not stop
one that never comes back: a constraint may ask for a larger type than its header,
as in `impl<T: conv<Box<U>>, U> conv<U>(T)`, and then every query asks for a new
one. Nothing in the search bounds the types.

If only finitely many queries can be reached with answers that are possible, both the
search over the table and the checker's search end, with any queries in progress and
after any session. A growing constraint is harmless behind one that can only fail.
-/

namespace Ciel.Typeck.Capability

open Ciel.Types
open Library (Ask Goal Plan Memo)

variable {step : Step}

theorem asks_checkGoals {goals : List (Goal CapabilityCheckKey)}
    (asks : (checkGoals goals).Asks step) : ∃ key, step = .byDef key := by
  have one (key : CapabilityCheckKey) (rest : Answer → Ask Step Answer Bool)
      (later : ∀ answer, (rest answer).Asks step → ∃ key, step = .byDef key)
      (asks : Ask.Asks step (.ask (.byDef key) rest)) : ∃ key, step = .byDef key := by
    cases asks with
    | here => exact ⟨key, rfl⟩
    | later asks => exact later _ asks
  induction goals with
  | nil => cases asks
  | cons goal rest ih =>
    have after (f : Bool → Bool)
        (asks : (checkGoals rest >>= fun others => pure (f others)).Asks step) :
        ∃ key, step = .byDef key := by
      obtain asks | ⟨_, asks⟩ := Ask.asks_bind asks
      · exact ih asks
      · cases asks
    cases goal with
    | check ok => exact after _ asks
    | pos key | neg key => exact one key _ (fun answer => after _) asks

namespace Checker

variable {checker : Checker}

theorem asks_countMatches {interfaceDef : DefId} {interfaceArgs : List Ty} {receiverTy : Ty}
    {templates : List GenericImplTemplate}
    (asks : (checker.countMatches interfaceDef interfaceArgs receiverTy templates).Asks step) :
    ∃ key, step = .byDef key := by
  induction templates with
  | nil => cases asks
  | cons template rest ih =>
    rw [countMatches] at asks
    split at asks
    · exact ih asks
    · obtain asks | ⟨_, asks⟩ := Ask.asks_bind asks
      · exact asks_checkGoals asks
      · obtain asks | ⟨_, asks⟩ := Ask.asks_bind asks
        · exact ih asks
        · cases asks

theorem asks_instantiateGenericImpl {interfaceDef : DefId} {interfaceArgs : List Ty}
    {receiverTy : Ty}
    (asks : (checker.instantiateGenericImpl interfaceDef interfaceArgs receiverTy).Asks step) :
    ∃ key, step = .byDef key := by
  rw [instantiateGenericImpl] at asks
  split at asks
  · cases asks
  · obtain asks | ⟨_, asks⟩ := Ask.asks_bind asks
    · exact asks_countMatches asks
    · cases asks

/-- How many unguarded steps there can be before a guarded one. -/
def rank (checker : Checker) : Step → Nat
  | .forReceiver _ => 0
  | .byDef key => if (checker.messageWitness key).isSome then 2 else 1
  | .implFor _ _ _ => 3

theorem rank_lt_of_asks {other : Step} (unguarded : checker.plan.guarded step = false)
    (asks : (checker.plan.body step).Asks other) : checker.rank other < checker.rank step := by
  cases step with
  | forReceiver key => cases unguarded
  | implFor interfaceDef interfaceArgs receiverTy =>
    obtain ⟨key, rfl⟩ := asks_instantiateGenericImpl asks
    show (if (checker.messageWitness key).isSome then 2 else 1) < 3
    split <;> omega
  | byDef key =>
    have body : (checker.typeImplementsCapabilityByDef key).Asks other := asks
    rw [typeImplementsCapabilityByDef] at body
    split at body
    · cases body
    split at body
    next sopTy witness =>
      have isSecond : other = .byDef { key with receiverTy := sopTy } := by
        cases body with
        | here => rfl
        | later none => cases none
      subst isSecond
      simp [rank, witness, checker.witness_once key sopTy witness]
    next witness =>
      have isReceiver : ∃ key', other = .forReceiver key' := by
        cases body with
        | here => exact ⟨key, rfl⟩
        | later rest =>
          dsimp only at rest
          split at rest
          · cases rest
          · cases rest with
            | here => exact ⟨_, rfl⟩
            | later none => cases none
      obtain ⟨key', rfl⟩ := isReceiver
      simp [rank, witness]

/-- `impl<T: b> a(T)` and `impl<T: a> b(T)`. -/
def crossing : List Blanket := [⟨0, [(1, "b")], []⟩, ⟨1, [(0, "a")], []⟩]

end Checker

namespace Growing

/-- `Box<Box<…<i64>…>>`. -/
def boxes : Nat → Ty
  | 0 => .primitive .i64
  | n + 1 => .named (some 1) "Box" [boxes n]

/-- A bound that nothing satisfies. -/
def never : ConstraintRef := .mk 2 "never" []

/-- `impl<T: conv<Box<U>>, U> conv<U>(T)`, with other bounds before the one that grows. -/
def template (before : List ConstraintRef) : GenericImplTemplate where
  interfaceDef := 0
  generics := ["T", "U"]
  genericConstraints :=
    [⟨"T", false, .mk (before ++ [.mk 0 "conv" [.named (some 1) "Box" [.generic "U"]]]) []⟩,
      ⟨"U", false, .mk [] []⟩]
  interfaceArgs := [.generic "T", .generic "U"]
  receiverTy := some (.generic "T")

def table (before : List ConstraintRef) : ImplTable := ⟨[], [template before], fun _ => false⟩

/-- Is there `conv<Box<…<i64>…>>(i64)`? -/
def query (n : Nat) : CapabilityCheckKey := ⟨0, "conv", [boxes n], .primitive .i64⟩

theorem boxes_closed (n : Nat) : containsGeneric (boxes n) = false := by
  induction n with
  | zero => rfl
  | succ n ih =>
    show (false || (containsGeneric (boxes n) || false)) = false
    rw [ih]
    rfl

theorem boxes_injective {n m : Nat} (same : boxes n = boxes m) : n = m := by
  induction n generalizing m with
  | zero => cases m with
    | zero => rfl
    | succ m => cases same
  | succ n ih => cases m with
    | zero => cases same
    | succ m =>
      injection same with _ _ args
      exact congrArg Nat.succ (ih (List.cons.inj args).1)

theorem strip_boxes (n : Nat) : (boxes n).stripOpaqueState = boxes n := by
  cases n <;> rfl

/-- Each query has one rule, which asks for the next, after the bounds before it. -/
theorem rules_query (n : Nat) {before : List ConstraintRef}
    (isBound : before = [] ∨ before = [never]) :
    (table before).rules (query n) = [.check true ::
      (before.map fun bound => .pos (capabilityKey (.primitive .i64) bound)) ++
        [.pos (query (n + 1)), .check true]] := by
  let subst : TySubst := [("U", boxes n), ("T", .primitive .i64), ("T", .generic "T"),
    ("U", .generic "U")]
  have unified : unifyTys [.generic "T", .generic "U"] [.primitive .i64, boxes n]
      (selfSubst ["T", "U"]) = some subst := by
    have bound : bindGeneric "U" (boxes n).stripOpaqueState
        [("T", .primitive .i64), ("T", .generic "T"), ("U", .generic "U")] = some subst := by
      rw [strip_boxes]
      rfl
    show Option.bind (bindGeneric "U" (boxes n).stripOpaqueState
      [("T", .primitive .i64), ("T", .generic "T"), ("U", .generic "U")]) (unifyTys [] []) = _
    rw [bound]
    rfl
  have closed : subst.bindsAll ["T", "U"] = true := by
    show (!containsGeneric (.primitive .i64) && (!containsGeneric (boxes n) && true)) = true
    rw [boxes_closed]
    rfl
  have matched : (template before).matchKey (query n) = some subst := by
    show Option.filter (TySubst.bindsAll · ["T", "U"]) (unifyTys [.generic "T", .generic "U"]
      [.primitive .i64, boxes n] (selfSubst ["T", "U"])) = _
    rw [unified, Option.filter_some, if_pos closed]
  show [] ++ [template before].filterMap _ = _
  simp only [List.filterMap_cons, matched, List.filterMap_nil]
  obtain rfl | rfl := isBound <;> rfl

/-- The search for a query only comes to larger ones, and never ends. -/
theorem search_query (fuel n : Nat) (stack : List CapabilityCheckKey)
    (smaller : ∀ earlier ∈ stack, ∃ m < n, earlier = query m) :
    (table []).capabilitySatisfied fuel stack (query n) = none := by
  induction fuel generalizing n stack with
  | zero => rfl
  | succ fuel ih =>
    have fresh : query n ∉ stack := by
      intro inside
      obtain ⟨m, less, same⟩ := smaller _ inside
      have := boxes_injective (List.cons.inj (congrArg (·.args) same)).1
      omega
    have next : (table []).capabilitySatisfied fuel (query n :: stack) (query (n + 1)) = none := by
      apply ih
      intro earlier inside
      obtain rfl | inside := List.mem_cons.mp inside
      · exact ⟨n, by omega, rfl⟩
      · obtain ⟨m, less, same⟩ := smaller earlier inside
        exact ⟨m, by omega, same⟩
    have free : (table []).rules.plan.cuts stack (query n) = false := by
      simpa [Plan.cuts] using fun _ => fresh
    rw [ImplTable.capabilitySatisfied, Plan.search, free]
    show (Goal.askAny ((table []).rules (query n))).run _ = none
    rw [rules_query n (.inl rfl)]
    show Option.bind ((table []).capabilitySatisfied fuel (query n :: stack) (query (n + 1))) _ =
      none
    rw [next]
    rfl

/-- The growing bound is not reached behind one that nothing satisfies. -/
theorem finite_pursues : {other | (table [never]).rules.plan.Pursues (query 0) other}.Finite := by
  let fails : CapabilityCheckKey := capabilityKey (.primitive .i64) never
  have refuted {answer : Bool} (possible : (table [never]).rules.plan.Possible fails answer) :
      answer = false := by
    refine possible (fun key answer => key = fails → answer = false) ⟨fun _ _ _ => rfl, ?_⟩ rfl
    rintro key answer yields rfl
    cases yields
    rfl
  refine (Set.toFinite {query 0, fails}).subset fun other pursues => ?_
  induction pursues with
  | refl => exact .inl rfl
  | @tail key other _ asks ih =>
    obtain rfl | rfl := ih
    · have asks : Ask.AsksAmong (table [never]).rules.plan.Possible other
        (Goal.askAny ((table [never]).rules (query 0))) := asks
      rw [rules_query 0 (.inr rfl)] at asks
      cases asks with
      | here => exact .inr rfl
      | later possible rest =>
        obtain rfl := refuted possible
        cases rest
    · cases asks

end Growing

end Ciel.Typeck.Capability
