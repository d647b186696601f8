import Ciel.Typeck.Effects
import Ciel.Typeck.Paths

/-!
# Rules for any comparison of scopes and stores

What the checker's scopes say about the store on a path differs from one property
to the next: that a cell may be read, that it was not written yet. How the facts
travel along the code does not. A `Bridge` is a way to compare scopes with stores
that survives the opening and closing of scopes and the merge of flows, together
with a relation between the stores before and after some code.

`Sound` relates a piece of code and a check of it: every path that starts in a
store that agrees with the scopes before the check ends in a store that agrees
with the scopes the check arrived at, at the end with those of the result, at a
break with those of one of the recorded breaks. There is one rule for each way in
which code is put together.
-/

namespace Ciel.Typeck

open Library (Scopes Outcome Runs)
open Library.Runs (Meets)

theorem bindAll_pop (depth : Nat) (bindings : List LocalId) (σ : Store) :
    (bindAll depth bindings σ).pop = σ.pop := by
  induction bindings generalizing σ with
  | nil => rfl
  | cons x rest ih => rw [bindAll, ih, bind, Scopes.pop_declare]

structure Bridge where
  /-- Whether a path may fault. -/
  Faults : Prop
  /-- The loop depth that the paths of code in a context record. -/
  depth : Context → Nat
  /-- What a check can do to a binding. -/
  Drifts : LocalId → Binding → Binding → Prop
  /-- The scopes are right about the store, inside so many loops. -/
  Agrees : Nat → Store → LocalScopes → Prop
  /-- What code in a context can do to the store. -/
  Kept : Context → Store → Store → Prop
  drifts_refl : ∀ x b, Drifts x b b
  push : ∀ {depth σ s}, Agrees depth σ s → Agrees depth σ.push s.push
  pop : ∀ {depth σ s}, Agrees depth σ s → Agrees depth σ.pop s.pop
  merge : ∀ {depth σ s t flows before}, (∀ u ∈ flows, Scopes.Rel Drifts s u) → t ∈ flows →
    Agrees depth σ t → Agrees depth σ (LocalScopes.mergeReachableFlows before flows)
  kept_refl : ∀ ctx σ, Kept ctx σ σ
  kept_trans : ∀ {ctx σ τ υ}, Kept ctx σ τ → Kept ctx τ υ → Kept ctx σ υ
  kept_pop : ∀ {ctx σ τ}, Kept ctx σ τ → Kept ctx σ.pop τ.pop

namespace Bridge

variable (k : Bridge)

/-- A path ended normally, as the checker foresaw. -/
def Ends (depth : Nat) (r : Checked) (τ : Store) : Prop :=
  r.falls = true ∧ k.Agrees depth τ r.scopes

/-- A path ended in a break that the checker recorded. -/
def Breaks (depth : Nat) (r : Checked) (τ : Store) : Prop := ∃ t ∈ r.breaks, k.Agrees depth τ t

/-- The paths of `a` do what the check from `s` to `r` says. A statement may add
locals to the innermost scope, so for it the stores are compared below that: the
`view` is `id` for an expression and `Scopes.pop` for a statement. -/
def Sound (view : Store → Store) (ctx : Context) (s : LocalScopes) (a : Runs Store) (r : Checked) :
    Prop :=
  Meets k.Faults (k.Agrees ctx.loopDepth · s) a (k.Ends ctx.loopDepth r) (k.Breaks ctx.loopDepth r)
    fun σ τ => k.Kept ctx (view σ) (view τ)

/-- One of several branches is taken, each checked from the same scopes. -/
def SoundAny (ctx : Context) (s : LocalScopes) (a : Runs Store) (ends broken : List Checked) :
    Prop :=
  Meets k.Faults (k.Agrees ctx.loopDepth · s) a (fun τ => ∃ r ∈ ends, k.Ends ctx.loopDepth r τ)
    (fun τ => ∃ r ∈ broken, k.Breaks ctx.loopDepth r τ) (k.Kept ctx)

variable {k} {view : Store → Store} {ctx : Context} {s : LocalScopes} {a b : Runs Store}
variable {r r' : Checked} {ends broken ends' broken' : List Checked} {P C N B : Store → Prop}

theorem seq (first : Meets k.Faults P a C B fun σ τ => k.Kept ctx (view σ) (view τ))
    (next : Meets k.Faults C b N B fun σ τ => k.Kept ctx (view σ) (view τ)) :
    Meets k.Faults P (Runs.seq a b) N B fun σ τ => k.Kept ctx (view σ) (view τ) :=
  Meets.seq first next (fun _ _ kept => kept) fun _ _ _ => k.kept_trans

namespace Sound

theorem below (h : k.Sound id ctx s a r) : k.Sound Scopes.pop ctx s a r :=
  Meets.onFrame h fun _ _ kept => k.kept_pop kept

/-- The result may promise less. -/
theorem weaken (h : k.Sound view ctx s a r) (scopes : r'.scopes = r.scopes)
    (falls : r.falls = true → r'.falls = true) (breaks : ∀ t ∈ r.breaks, t ∈ r'.breaks) :
    k.Sound view ctx s a r' :=
  Meets.onEnds h (fun _ post => ⟨falls post.1, scopes ▸ post.2⟩)
    fun _ ⟨t, mem, agrees⟩ => ⟨t, breaks t mem, agrees⟩

theorem skip : k.Sound view ctx s Runs.skip (.done s) :=
  Meets.skip (fun _ pre => ⟨rfl, pre⟩) fun σ => k.kept_refl ctx (view σ)

/-- Code that is reached only if what came before can fall through. -/
theorem afterEnd {K : Store → Store → Prop}
    (h : r.falls = true → Meets k.Faults (k.Agrees ctx.loopDepth · r.scopes) a N B K) :
    Meets k.Faults (k.Ends ctx.loopDepth r) a N B K :=
  fun σ out τ start path => h start.1 σ out τ start.2 path

theorem andThen {first next : Checked} (h : k.Sound view ctx s a first)
    (h' : k.Sound view ctx first.scopes b next) :
    k.Sound view ctx s (Runs.seq a b) (first.andThen next) := by
  refine seq (Meets.onBreak h fun _ ⟨t, mem, agrees⟩ => ⟨t, List.mem_append_left _ mem, agrees⟩)
    (afterEnd fun falls => Meets.onEnds h'
      (fun _ post => ⟨Bool.and_eq_true_iff.2 ⟨falls, post.1⟩, post.2⟩)
      fun _ ⟨t, mem, agrees⟩ => ⟨t, List.mem_append_right _ mem, agrees⟩)

/-- The code was checked from scopes that agree where those before it do. -/
theorem ahead {t : LocalScopes} (h : k.Sound view ctx t a r)
    (pre : ∀ σ, k.Agrees ctx.loopDepth σ s → k.Agrees ctx.loopDepth σ t) :
    k.Sound view ctx s a r :=
  Meets.onStart h pre

/-- A scope around a statement. -/
theorem inScope (h : k.Sound Scopes.pop ctx s.push a r) : k.Sound id ctx s (inScope a) r.pop :=
  Meets.within h (fun _ => k.push) (fun _ post => ⟨post.1, k.pop post.2⟩)
    (fun _ ⟨t, mem, agrees⟩ => ⟨t.pop, List.mem_map_of_mem mem, k.pop agrees⟩) fun _ _ kept => kept

/-- Statements in their scope, and the value after them if they come to an end. -/
theorem unreached (h : k.Sound view ctx s a r) (stuck : ¬r.falls = true) :
    k.Sound view ctx s (Runs.seq a b) r :=
  seq h (afterEnd fun falls => absurd falls stuck)

theorem any (h : k.Sound id ctx s a r) (inEnds : r ∈ ends) (inBroken : r ∈ broken) :
    k.SoundAny ctx s a ends broken :=
  Meets.onEnds h (fun _ post => ⟨r, inEnds, post⟩) fun _ post => ⟨r, inBroken, post⟩

/-- A node that may not return, after its operands. -/
theorem strict {never : Bool} (h : k.Sound id ctx s a r) :
    k.Sound id ctx s (Runs.seq a (if never then Runs.never else Runs.skip))
      { r with falls := !never } := by
  cases never with
  | true => exact seq h Meets.never
  | false => exact seq h (Meets.skip (fun _ pre => ⟨rfl, pre.2⟩) (k.kept_refl ctx))

/-- `?` goes on or returns. -/
theorem question (h : k.Sound id ctx s a r) :
    k.Sound id ctx s (Runs.seq a (Runs.choice Runs.skip (Runs.jump .returns)))
      { r with falls := true } :=
  seq h (Meets.choice (Meets.skip (fun _ pre => ⟨rfl, pre.2⟩) (k.kept_refl ctx)) Meets.jump_returns)

/-- Locals are bound in the innermost scope before the code runs. -/
theorem bound {t : LocalScopes} {bind : Store → Store}
    (binds : ∀ σ, k.Agrees ctx.loopDepth σ s → k.Agrees ctx.loopDepth (bind σ) t)
    (below : ∀ σ, (bind σ).pop = σ.pop) (h : k.Sound Scopes.pop ctx t a r) :
    k.Sound Scopes.pop ctx s (Runs.seq (Runs.update bind) a) r :=
  seq (Meets.update fun σ pre => ⟨binds σ pre, by rw [below]; exact k.kept_refl ctx σ.pop⟩) h

/-- `&&` and `||`: the second operand runs, is skipped, or either. -/
theorem shortCircuit {runs skipped : Bool} {l : Checked} (first : k.Sound id ctx s a l)
    (next : k.Sound id ctx l.scopes b r) (drift : Scopes.Rel k.Drifts l.scopes r.scopes) :
    k.Sound id ctx s
      (Runs.seq a (Runs.choice (Runs.guard (runs = false) Runs.skip)
        (Runs.guard (skipped = false) b)))
      ⟨if runs then r.scopes else if skipped then l.scopes
        else l.scopes.mergeAssignedIntersection r.scopes, true, l.breaks ++ r.breaks⟩ := by
  have each : ∀ t ∈ [l.scopes, r.scopes], Scopes.Rel k.Drifts l.scopes t := by
    intro t mem
    obtain rfl | mem := List.mem_cons.1 mem
    · exact .refl k.drifts_refl l.scopes
    · rw [List.mem_singleton.1 mem]
      exact drift
  refine seq (Meets.onBreak first ?_)
    (afterEnd fun _ => Meets.choice (Meets.guard fun skips => Meets.skip ?_ (k.kept_refl ctx))
      (Meets.guard fun enters => Meets.onEnds next ?_ ?_))
  · rintro τ ⟨t, mem, agrees⟩
    exact ⟨t, List.mem_append_left _ mem, agrees⟩
  · intro τ agrees
    refine ⟨rfl, ?_⟩
    rw [skips]
    cases skipped with
    | true => exact agrees
    | false =>
      show k.Agrees ctx.loopDepth τ (s.mergeReachableFlows [l.scopes, r.scopes])
      exact k.merge each List.mem_cons_self agrees
  · rintro τ ⟨-, agrees⟩
    refine ⟨rfl, ?_⟩
    rw [enters]
    cases runs with
    | true => exact agrees
    | false =>
      show k.Agrees ctx.loopDepth τ (s.mergeReachableFlows [l.scopes, r.scopes])
      exact k.merge each (List.mem_cons_of_mem _ List.mem_cons_self) agrees
  · rintro τ ⟨t, mem, agrees⟩
    exact ⟨t, List.mem_append_right _ mem, agrees⟩

end Sound

/-! ## Branches -/

namespace SoundAny

theorem mono (h : k.SoundAny ctx s a ends broken) (more : ∀ r ∈ ends, r ∈ ends')
    (more' : ∀ r ∈ broken, r ∈ broken') : k.SoundAny ctx s a ends' broken' :=
  Meets.onEnds h (fun _ ⟨r, mem, post⟩ => ⟨r, more r mem, post⟩)
    fun _ ⟨r, mem, post⟩ => ⟨r, more' r mem, post⟩

/-- One more branch. -/
theorem cons (first : k.Sound id ctx s a r) (rest : k.SoundAny ctx s b ends ends) :
    k.SoundAny ctx s (Runs.choice a b) (r :: ends) (r :: ends) :=
  Meets.choice (first.any List.mem_cons_self List.mem_cons_self)
    (rest.mono (fun _ mem => List.mem_cons_of_mem _ mem) fun _ mem => List.mem_cons_of_mem _ mem)

/-- The flows that fall out of the branches are merged after them. -/
theorem join {flows breaks : List LocalScopes} {falls : Bool} (h : k.SoundAny ctx s a ends broken)
    (each : ∀ t ∈ flows, Scopes.Rel k.Drifts s t)
    (merged : ∀ r ∈ ends, r.falls = true → r.scopes ∈ flows ∧ falls = true)
    (leaves : ∀ r ∈ broken, ∀ t ∈ r.breaks, t ∈ breaks) :
    k.Sound id ctx s a ⟨s.mergeReachableFlows flows, falls, breaks⟩ := by
  refine Meets.onEnds h ?_ ?_
  · rintro τ ⟨r, mem, reached, agrees⟩
    obtain ⟨inside, reached⟩ := merged r mem reached
    exact ⟨reached, k.merge each inside agrees⟩
  · rintro τ ⟨r, mem, t, inside, agrees⟩
    exact ⟨t, leaves r mem t inside, agrees⟩

/-- The flows of the branches that can fall through are merged after them. -/
theorem joinFalling {branches : List Checked} (h : k.SoundAny ctx s a branches branches)
    (each : ∀ r ∈ branches, Scopes.Rel k.Drifts s r.scopes) :
    let reachable := (branches.filter Checked.falls).map Checked.scopes
    k.Sound id ctx s a
      ⟨s.mergeReachableFlows reachable, !reachable.isEmpty, branches.flatMap Checked.breaks⟩ := by
  refine h.join (fun t mem => ?_) (fun r mem falls => ?_)
    fun r mem t inside => List.mem_flatMap.2 ⟨r, mem, inside⟩
  · obtain ⟨r, inside, rfl⟩ := List.mem_map.1 mem
    exact each r (List.mem_filter.1 inside).1
  · have reached : r.scopes ∈ (branches.filter Checked.falls).map Checked.scopes :=
      List.mem_map_of_mem (List.mem_filter.2 ⟨mem, falls⟩)
    refine ⟨reached, ?_⟩
    rw [List.isEmpty_eq_false_iff.2 (List.ne_nil_of_mem reached), Bool.not_false]

/-- After a switch the breaks out of its cases are merged as well. -/
theorem joinBreaks {flows : List LocalScopes} {falls : Bool} (h : k.SoundAny ctx s a ends broken)
    (each : ∀ t ∈ flows, Scopes.Rel k.Drifts s t)
    (merged : ∀ r ∈ ends, r.falls = true → r.scopes ∈ flows)
    (caught : ∀ r ∈ broken, ∀ t ∈ r.breaks, t ∈ flows) (some : ∀ t ∈ flows, falls = true) :
    k.Sound id ctx s (Runs.catchBreak a) ⟨s.mergeReachableFlows flows, falls, []⟩ := by
  refine Meets.catchBreak (Meets.onEnds h ?_ fun _ post => post) ?_
  · rintro τ ⟨r, mem, reached, agrees⟩
    exact ⟨some _ (merged r mem reached), k.merge each (merged r mem reached) agrees⟩
  · rintro τ ⟨r, mem, t, inside, agrees⟩
    exact ⟨some _ (caught r mem t inside), k.merge each (caught r mem t inside) agrees⟩

/-- A switch. The default `d` counts only where the cases leave something to it. -/
theorem switch {cases default : Runs Store} {cs : List Checked} {d : Checked}
    (exhaustive hasDefault : Bool) (casesSound : k.SoundAny ctx s cases cs cs)
    (defaultSound : k.Sound id ctx s default d) (each : ∀ r ∈ cs ++ [d], Drift k.Drifts s r) :
    let ends := if hasDefault && !exhaustive then cs ++ [d] else cs
    let broken := if hasDefault && exhaustive then cs else cs ++ [d]
    let reachable := (ends.filter Checked.falls).map Checked.scopes ++ broken.flatMap Checked.breaks
    k.Sound id ctx s (Runs.catchBreak (Runs.choice cases
        (Runs.guard (hasDefault = true ∧ exhaustive = false) default)))
      ⟨s.mergeReachableFlows reachable, !reachable.isEmpty, []⟩ := by
  intro ends broken reachable
  have inEnds : ∀ r ∈ ends, r ∈ cs ++ [d] := by
    intro r mem
    simp only [ends] at mem
    split at mem
    · exact mem
    · exact List.mem_append_left _ mem
  have inBroken : ∀ r ∈ broken, r ∈ cs ++ [d] := by
    intro r mem
    simp only [broken] at mem
    split at mem
    · exact List.mem_append_left _ mem
    · exact mem
  have branches : k.SoundAny ctx s (Runs.choice cases
      (Runs.guard (hasDefault = true ∧ exhaustive = false) default)) ends broken := by
    refine Meets.choice (casesSound.mono (fun r mem => ?_) fun r mem => ?_)
      (Meets.guard fun ⟨has, open'⟩ => defaultSound.any ?_ ?_)
    · simp only [ends]
      split
      · exact List.mem_append_left _ mem
      · exact mem
    · simp only [broken]
      split
      · exact mem
      · exact List.mem_append_left _ mem
    · simp [ends, has, open']
    · simp [broken, open']
  refine branches.joinBreaks (fun t mem => ?_) (fun r mem falls => ?_)
    (fun r mem t inside => ?_) fun t mem => ?_
  · obtain mem | mem := List.mem_append.1 mem
    · obtain ⟨r, inside, rfl⟩ := List.mem_map.1 mem
      exact (each r (inEnds r (List.mem_filter.1 inside).1)).scopes
    · obtain ⟨r, inside, broke⟩ := List.mem_flatMap.1 mem
      exact (each r (inBroken r inside)).breaks t broke
  · exact List.mem_append_left _ (List.mem_map_of_mem (List.mem_filter.2 ⟨mem, falls⟩))
  · exact List.mem_append_right _ (List.mem_flatMap.2 ⟨r, mem, inside⟩)
  · rw [List.isEmpty_eq_false_iff.2 (List.ne_nil_of_mem mem), Bool.not_false]

end SoundAny

/-! ## Loops -/

/-- What a loop in a context asks of a comparison. What agreed at the start of an
iteration has to agree at its end (`again`). -/
structure Loops (k : Bridge) (ctx : Context) : Prop where
  deeper : ∀ σ t, k.Agrees ctx.loopDepth σ t → k.Agrees ctx.inLoop.loopDepth σ t
  lower : ∀ σ τ t u, k.Agrees ctx.loopDepth σ t → k.Kept ctx.inLoop σ τ →
    k.Agrees ctx.inLoop.loopDepth τ u → k.Agrees ctx.loopDepth τ u
  again : ∀ σ τ t, k.Agrees ctx.loopDepth σ t → k.Kept ctx.inLoop σ τ → k.Agrees ctx.loopDepth τ t
  depth_inLoop : k.depth ctx.inLoop = k.depth ctx + 1
  depth_loopBody : k.depth ctx.loopBody = k.depth ctx + 1
  inside : ∀ σ τ, k.Kept ctx.loopBody σ τ → k.Kept ctx.inLoop σ τ
  outside : ∀ σ τ, k.Kept ctx.inLoop σ τ → k.Kept ctx σ τ

/-- The loop rule: the condition is checked once for all iterations, the step on
the scopes after the condition, and the body after the step. The condition and the
step do not jump. -/
theorem Sound.loop {mayEnter : Prop} {cond body step : Runs Store} {always : Bool} {c n l : Checked}
    (loops : k.Loops ctx) (condQuiet : cond.Quiet) (stepQuiet : step.Quiet)
    (condSound : k.Sound id ctx.inLoop s cond c) (stepSound : k.Sound id ctx.inLoop c.scopes step n)
    (bodySound : k.Sound id ctx.loopBody n.scopes body l)
    (ahead : ∀ σ, k.Agrees ctx.loopDepth σ c.scopes → k.Agrees ctx.loopDepth σ n.scopes) :
    k.Sound id ctx s (Runs.loop mayEnter (always = false) cond body step)
      ⟨c.scopes, !(always && l.breaks.isEmpty), []⟩ := by
  obtain ⟨deeper, lower, again, -, -, inside, outside⟩ := loops
  have head : Meets k.Faults (k.Agrees ctx.loopDepth · s) cond (k.Agrees ctx.loopDepth · c.scopes)
      (fun _ => True) (k.Kept ctx.inLoop) := by
    refine Meets.onEnds (Meets.remember (Meets.onStart condSound
      fun σ (pre : k.Agrees ctx.loopDepth σ s) => deeper σ s pre)) ?_ fun _ _ => trivial
    rintro τ ⟨⟨-, agrees⟩, σ, start, kept⟩
    exact lower σ τ s c.scopes start kept agrees
  have next : Meets k.Faults (k.Agrees ctx.loopDepth · c.scopes) step (fun _ => True)
      (fun _ => True) (k.Kept ctx.inLoop) :=
    Meets.consequence stepSound
      (fun σ (pre : k.Agrees ctx.loopDepth σ c.scopes) => deeper σ c.scopes pre)
      (fun _ _ => trivial) (fun _ _ => trivial) fun _ _ _ kept => kept
  have inner : Meets k.Faults (k.Agrees ctx.loopDepth · c.scopes) body (fun _ => True)
      (fun _ => l.breaks.isEmpty = false) (k.Kept ctx.inLoop) :=
    Meets.consequence bodySound
      (fun σ (pre : k.Agrees ctx.loopDepth σ c.scopes) => deeper σ n.scopes (ahead σ pre))
      (fun _ _ => trivial)
      (fun _ ⟨t, mem, _⟩ => List.isEmpty_eq_false_iff.2 (List.ne_nil_of_mem mem))
      fun _ _ _ kept => inside _ _ kept
  refine Meets.onFrame (Meets.loop condQuiet stepQuiet head inner next (fun _ _ _ => k.kept_trans)
    (fun _ _ pre kept => again _ _ _ pre kept) (fun _ _ pre kept => again _ _ _ pre kept) ?_ ?_)
      outside
  · intro exits τ agrees
    exact ⟨by rw [exits]; rfl, agrees⟩
  · intro τ υ agrees broke kept
    exact ⟨by rw [broke, Bool.and_false]; rfl, again _ _ _ agrees kept⟩

/-! ## Code that is checked ahead of its turn -/

/-- The code `b` was checked from `s` to `p`, but the code `a`, which was checked
after it, from there to `c`, runs before it. -/
def Late (k : Bridge) (ctx : Context) (s : LocalScopes) (a b : Runs Store) (p c : Checked) : Prop :=
  ∃ mid, Meets k.Faults (k.Agrees ctx.loopDepth · s) a mid (k.Breaks ctx.loopDepth c) (k.Kept ctx) ∧
    Meets k.Faults mid b (k.Ends ctx.loopDepth { c with falls := p.falls })
      (k.Breaks ctx.loopDepth p)
      (k.Kept ctx)

/-- An assignment to a place: checked place first, evaluated value first. -/
theorem Late.store {p c : Checked} (h : k.Late ctx s a b p c) :
    k.Sound id ctx s (Runs.seq a b) ⟨c.scopes, true, p.breaks ++ c.breaks⟩ := by
  obtain ⟨mid, first, late⟩ := h
  refine seq (Meets.onBreak first ?_) (Meets.onEnds late (fun _ post => ⟨rfl, post.2⟩) ?_)
  · rintro τ ⟨t, mem, agrees⟩
    exact ⟨t, List.mem_append_right _ mem, agrees⟩
  · rintro τ ⟨t, mem, agrees⟩
    exact ⟨t, List.mem_append_left _ mem, agrees⟩

/-- An interface call: the receiver is checked first, and evaluated and handed over
after the arguments before it. -/
theorem Late.receiver {i l c n : Checked} {before receiver hand after : Runs Store}
    (h : k.Late ctx s before receiver i l)
    (handed : ∀ B, Meets k.Faults (k.Ends ctx.loopDepth { l with falls := i.falls }) hand
      (k.Ends ctx.loopDepth c) B (k.Kept ctx)) (afterSound : k.Sound id ctx c.scopes after n) :
    k.Sound id ctx s (Runs.seq before (Runs.seq (Runs.seq receiver hand) after))
      ⟨n.scopes, true, i.breaks ++ l.breaks ++ n.breaks⟩ := by
  obtain ⟨mid, first, late⟩ := h
  refine seq (Meets.onBreak first ?_) (seq (seq (Meets.onBreak late ?_) (handed _))
    (Sound.afterEnd fun _ => Meets.onEnds afterSound (fun _ post => ⟨rfl, post.2⟩) ?_))
  · rintro τ ⟨t, mem, agrees⟩
    exact ⟨t, List.mem_append_left _ (List.mem_append_right _ mem), agrees⟩
  · rintro τ ⟨t, mem, agrees⟩
    exact ⟨t, List.mem_append_left _ (List.mem_append_left _ mem), agrees⟩
  · rintro τ ⟨t, mem, agrees⟩
    exact ⟨t, List.mem_append_right _ mem, agrees⟩

end Bridge

end Ciel.Typeck
