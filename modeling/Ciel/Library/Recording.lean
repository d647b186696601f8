import Ciel.Library.Hunt

/-!
# Computations that record as they go

A computation may read a state and add to it, as a lookup does that fills a table.
While the state keeps an invariant, such a computation can answer exactly as one
without a state does. `Gives` says so; it is shown for the pieces and put together
along the computation, up to a hunt that looks things up in the state.
-/

namespace Library

variable {S A B Q : Type}

/-- From a state that keeps the invariant the computation answers as given, and the
state that it leaves keeps the invariant. -/
def Gives (I : S → Prop) (m : StateT S Option A) (answer : Option A) : Prop :=
  ∀ s, I s → ∃ after, I after ∧ m.run s = answer.map fun a => (a, after)

namespace Gives

variable {I : S → Prop}

theorem pure (a : A) : Gives I (Pure.pure a) (some a) := fun s keeps => ⟨s, keeps, rfl⟩

theorem stuck : Gives I (fun _ => none : StateT S Option A) none := fun s keeps => ⟨s, keeps, rfl⟩

theorem bind {m : StateT S Option A} {answer : Option A} {next : A → StateT S Option B}
    {f : A → Option B} (first : Gives I m answer)
    (rest : ∀ a, answer = some a → Gives I (next a) (f a)) :
    Gives I (m >>= next) (answer.bind f) := by
  intro s keeps
  obtain ⟨after, kept, ran⟩ := first s keeps
  rw [StateT.run_bind, ran]
  cases answer with
  | none => exact ⟨after, kept, rfl⟩
  | some a => exact rest a rfl after kept

/-- Ask in order up to the first that is found, in the way of a hunt. -/
theorem upTo {ask : Q → StateT S Option Bool} {anyOf : List Q → StateT S Option Bool}
    (nil : anyOf [] = Pure.pure false)
    (cons : ∀ q rest, anyOf (q :: rest) =
      ask q >>= fun found => if found = true then Pure.pure true else anyOf rest)
    {f : Q → Option Bool} {queries : List Q} (each : ∀ q ∈ queries, Gives I (ask q) (f q)) :
    Gives I (anyOf queries)
      ((Ask.upTo true (fun q => Ask.ask q Ask.done : Q → Ask Q Bool Bool) queries).run f) := by
  induction queries with
  | nil => exact nil ▸ .pure false
  | cons q rest ih =>
    rw [cons, Ask.upTo, Ask.run_bind, Hunt.run_ask]
    refine (each q List.mem_cons_self).bind fun found _ => ?_
    cases found with
    | true => exact .pure true
    | false => exact ih fun other member => each other (List.mem_cons_of_mem _ member)

end Gives

end Library
