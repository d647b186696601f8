import Ciel.Mono.Finite

/-!
# What the growth diagnostic says about a program

The diagnostic is reported when the arguments of a template have become larger than those
of the instance before it on the chain. It means to say that the instances go on without
end. That is right if the growth that was seen goes on: the larger instances that the chain
leads to lead to larger ones again. It is wrong if the arguments are larger once and stay the
same from then on.
-/

namespace Ciel.Mono

open Ciel.Types

namespace CheckedProgram

variable (program : CheckedProgram) (ω : InstanceKey → Nat)

/-- The body of a function refers to another one. -/
def Calls (caller callee : FunctionId) : Prop :=
  ∃ body request, program.bodyOf ω caller = some body ∧ request ∈ body ∧ callee = request.target

/-- A function can be reached from the roots by following calls, growth or not. -/
def Called (id : FunctionId) : Prop :=
  ∃ defId ∈ program.roots, Relation.ReflTransGen (program.Calls ω) (.declared defId) id

/-- An instance of a template leads to another one, and the growth check sees that it is
larger. -/
def LeadsToLarger (defId : DefId) (args larger : List Ty) : Prop :=
  Relation.TransGen (program.Calls ω) (.generic (defId, args)) (.generic (defId, larger)) ∧
    isStrictTypeArgumentGrowth args larger = true

/-- The growth of a template on a chain goes on: the larger instances that the instances on
the chain lead to lead to larger ones again. -/
def GrowthGoesOn (defId : DefId) (chain : List TypeExpansionFrame) : Prop :=
  ∀ frame ∈ chain, frame.defId = defId → ∀ args,
    Relation.TransGen (program.LeadsToLarger ω defId) frame.typeArgs args →
      ∃ larger, program.LeadsToLarger ω defId args larger

variable {program ω} {id : FunctionId} {ctx : MonoContext} {defId : DefId}
  {chain : List TypeExpansionFrame}

theorem Reachable.called (reached : program.Reachable ω id chain) : program.Called ω id := by
  induction reached with
  | root isRoot => exact ⟨_, isRoot, .refl⟩
  | plain _ hasBody inside ih | generic _ hasBody inside _ ih =>
    obtain ⟨root, isRoot, path⟩ := ih
    exact ⟨root, isRoot, path.tail ⟨_, _, hasBody, inside, rfl⟩⟩

/-- The instances on its chain lead to a function. -/
theorem Reachable.leads (reached : program.Reachable ω id chain) :
    ∀ frame ∈ chain,
      Relation.ReflTransGen (program.Calls ω) (.generic (frame.defId, frame.typeArgs)) id := by
  induction reached with
  | root | plain => exact List.forall_mem_nil _
  | @generic id chain body key _ hasBody inside _ ih =>
    refine List.forall_mem_append.mpr ⟨fun frame earlier => ?_, List.forall_mem_singleton.mpr .refl⟩
    exact (ih frame earlier).tail ⟨body, _, hasBody, inside, rfl⟩

/-- The growth check has compared with an instance on the chain. -/
theorem exists_of_growthDiagnosed {args : List Ty}
    (grown : growthDiagnosed chain defId args = true) :
    ∃ frame ∈ chain, frame.defId = defId ∧ isStrictTypeArgumentGrowth frame.typeArgs args =
      true := by
  rw [growthDiagnosed, Bool.and_eq_true, Option.any_eq_true] at grown
  obtain ⟨-, frame, isLast, larger⟩ := grown
  obtain ⟨inside, same⟩ := List.mem_filter.mp (List.mem_of_getLast? isLast)
  exact ⟨frame, inside, eq_of_beq same, larger⟩

/-- The diagnostic is reported at a request of the body, and its chain is the current one
with the instance asked for. -/
theorem rewriteBlock_diagnostic {body : List Request}
    (ran : (program.rewriteBlock ctx body).2 = some (.infiniteGenericInstantiation defId chain)) :
    ∃ args, .generic (defId, args) ∈ body ∧ chain = ctx.currentStack ++ [⟨defId, args⟩] ∧
      growthDiagnosed ctx.currentStack defId args = true := by
  induction body generalizing ctx with
  | nil => cases ran
  | cons request rest ih =>
    rw [rewriteBlock] at ran
    split at ran
    next next here =>
      obtain ⟨args, inside, grown⟩ := ih ran
      rw [(keeps_rewriteRequest here).currentStack] at grown
      exact ⟨args, List.mem_cons_of_mem _ inside, grown⟩
    next diagnostic failed =>
      obtain rfl := Option.some.inj ran
      cases request with
      | function => cases failed
      | generic key =>
        simp only [rewriteRequest, instantiateGeneric] at failed
        repeat' split at failed
        all_goals cases failed
        next grown => exact ⟨key.2, List.mem_cons_self, rfl, grown⟩

/-- Where growth is reported, an instance on the chain leads to a larger one, which is
called. -/
theorem larger_of_reported {rounds : Nat}
    (reported : .infiniteGenericInstantiation defId chain ∈ (program.after rounds).diagnostics) :
    ∃ frame ∈ chain, frame.defId = defId ∧ ∃ args,
      program.Called program.numbering (.generic (defId, args)) ∧
        program.LeadsToLarger program.numbering defId frame.typeArgs args := by
  induction rounds with
  | zero =>
    obtain ⟨-, -, none, -⟩ := start_spec program program.numbering
    rw [show (program.after 0).diagnostics = [] from none] at reported
    cases reported
  | succ rounds ih =>
    obtain ⟨invariant, -⟩ := after_spec program rounds
    rw [after_succ, step] at reported
    split at reported
    next => exact ih reported
    rename_i id rest worklist
    rw [processFunction] at reported
    split at reported
    next => exact ih reported
    split at reported
    next => exact ih reported
    rename_i body known
    have queued : id ∈ (program.after rounds).queued := by
      rw [invariant.queued, worklist]
      simp
    have reached := invariant.reached id queued
    have hasBody : program.bodyOf program.numbering id = some body :=
      (invariant.entered id (invariant.entered_of_queued queued)).symm.trans known
    obtain old | new := List.mem_append.mp reported
    · rw [(keeps_rewriteBlock body).diagnostics] at old
      exact ih old
    · obtain ⟨args, inside, rfl, grown⟩ := rewriteBlock_diagnostic (Option.mem_toList.mp new)
      have call : program.Calls program.numbering id (.generic (defId, args)) :=
        ⟨body, _, hasBody, inside, rfl⟩
      obtain ⟨frame, earlier, rfl, larger⟩ := exists_of_growthDiagnosed grown
      obtain ⟨root, isRoot, path⟩ := reached.called
      exact ⟨frame, List.mem_append_left _ earlier, rfl, args, ⟨root, isRoot, path.tail call⟩,
        .tail' (reached.leads frame earlier) call, larger⟩

/-- Growth that is reported and goes on makes infinitely many instances. -/
theorem growth_reported_infinite (program : CheckedProgram) (defId : DefId)
    (chain : List TypeExpansionFrame) {rounds : Nat}
    (reported : .infiniteGenericInstantiation defId chain ∈ (program.after rounds).diagnostics)
    (goesOn : program.GrowthGoesOn program.numbering defId chain) :
    {key | program.Called program.numbering (.generic key)}.Infinite := by
  obtain ⟨frame, onChain, isTemplate, args, called, larger⟩ := larger_of_reported reported
  -- from the instance that was refused, one larger instance after the other
  have above : ∀ n, ∃ args, program.Called program.numbering (.generic (defId, args)) ∧
      Relation.TransGen (program.LeadsToLarger program.numbering defId) frame.typeArgs args ∧
      n ≤ tysComplexity args := by
    intro n
    induction n with
    | zero => exact ⟨args, called, .single larger, Nat.zero_le _⟩
    | succ n ih =>
      obtain ⟨before, ⟨root, isRoot, path⟩, grown, enough⟩ := ih
      obtain ⟨next, leads, more⟩ := goesOn frame onChain isTemplate before grown
      refine ⟨next, ⟨root, isRoot, path.trans leads.to_reflTransGen⟩, grown.tail ⟨leads, more⟩, ?_⟩
      rw [isStrictTypeArgumentGrowth, Bool.and_eq_true, decide_eq_true_eq] at more
      omega
  intro finite
  obtain ⟨bound, isBound⟩ := (finite.image fun key => tysComplexity key.2).bddAbove
  obtain ⟨next, called, -, more⟩ := above (bound + 1)
  have := isBound (Set.mem_image_of_mem (fun key : InstanceKey => tysComplexity key.2) called)
  dsimp only at this
  omega

/-- At any time the processed functions are different ones that the roots call. Once the
worklist is empty without a diagnostic, no such function with a body is left out. -/
theorem processed_exact (program : CheckedProgram) (rounds : Nat) :
    let ctx := program.after rounds
    ctx.processed.Nodup ∧ (∀ id ∈ ctx.processed, program.Called program.numbering id) ∧
      (ctx.worklist = [] → ctx.diagnostics = [] → ∀ id, program.Called program.numbering id →
        program.bodyOf program.numbering id ≠ none → id ∈ ctx.processed) := by
  intro ctx
  obtain ⟨invariant, closed, roots⟩ := after_spec program rounds
  obtain ⟨nodup, reached⟩ := program.processed_spec rounds
  refine ⟨nodup, fun id inside => (reached id inside).elim fun _ => Reachable.called, ?_⟩
  rintro empty silent id ⟨root, isRoot, path⟩ hasBody
  have of_queued {id : FunctionId} (queued : id ∈ ctx.queued) : id ∈ ctx.processed := by
    have inside := (invariant.queued id).mp queued
    rwa [empty, List.append_nil, List.nil_append] at inside
  -- along the calls: what is not processed has no body, so that no call leads on from it
  refine Or.resolve_right ?_ hasBody
  clear hasBody
  induction path with
  | refl => exact (roots root isRoot).imp_left of_queued
  | tail _ call ih =>
    obtain ⟨body, request, hasBody, inside, rfl⟩ := call
    obtain processed | none := ih
    · exact (closed silent _ processed body hasBody request inside).imp_left of_queued
    · cases none.symm.trans hasBody

/-! ### A function that calls itself -/

section Looping

variable {args : List Ty} {next : ClosureOwnerId → List Ty → List Ty} {P : List Ty → Prop}
  (later : ∀ owner args, P args → P (next owner args))

include later

/-- The instances that an instance leads to, by what each passes on to the next. -/
theorem leads_looping {first : List Ty} (holds : P first)
    (path : Relation.ReflTransGen ((looping args next).Calls ω) (.generic (1, first)) id) :
    ∃ args, id = .generic (1, args) ∧ P args := by
  induction path with
  | refl => exact ⟨first, rfl, holds⟩
  | tail _ call ih =>
    obtain ⟨body, request, hasBody, inside, rfl⟩ := call
    obtain ⟨args, rfl, holds⟩ := ih
    cases hasBody
    cases List.mem_singleton.mp inside
    exact ⟨_, rfl, later _ args holds⟩

theorem called_looping (holds : P args) {key : InstanceKey}
    (called : (looping args next).Called ω (.generic key)) : ∃ args, key = (1, args) ∧ P args := by
  obtain ⟨root, isRoot, path⟩ := called
  obtain rfl : root = 0 := List.mem_singleton.mp isRoot
  obtain same | ⟨_, ⟨body, request, hasBody, inside, rfl⟩, path⟩ :=
    Relation.ReflTransGen.cases_head path
  · cases same
  · cases hasBody
    cases List.mem_singleton.mp inside
    obtain ⟨args, same, holds⟩ := leads_looping later holds path
    exact ⟨args, FunctionId.generic.inj same, holds⟩

end Looping

/-- One argument is passed on as its slice, which is larger. -/
theorem growth_reported_infinite_slices :
    .infiniteGenericInstantiation 1 sliceChain ∈ (slices.after 3).diagnostics ∧
      {key | slices.Called slices.numbering (.generic key)}.Infinite := by
  have reported : .infiniteGenericInstantiation 1 sliceChain ∈ (slices.after 3).diagnostics := by
    decide
  refine ⟨reported, growth_reported_infinite _ 1 sliceChain reported ?_⟩
  rintro frame onChain - args grown
  obtain ⟨ty, rfl⟩ : ∃ ty, args = [ty] := by
    have single : ∃ ty, frame.typeArgs = [ty] := by
      simp only [sliceChain, List.mem_cons, List.not_mem_nil, or_false] at onChain
      obtain rfl | rfl | rfl := onChain <;> exact ⟨_, rfl⟩
    have later (owner : ClosureOwnerId) (args : List Ty) :
        (∃ ty, args = [ty]) → ∃ ty, args.map (Ty.slice .readOnly) = [ty] := by
      rintro ⟨ty, rfl⟩
      exact ⟨_, rfl⟩
    induction grown with
    | single leads | tail _ leads ih =>
      obtain ⟨args, same, holds⟩ := leads_looping later (by assumption) leads.1.to_reflTransGen
      cases same
      exact holds
  refine ⟨[.slice .readOnly ty], .single ⟨_, _, rfl, List.mem_singleton.mpr rfl, rfl⟩, ?_⟩
  have inside : tyContains (.slice .readOnly ty) ty = true :=
    tyContains_iff.mpr (.inr ⟨ty, List.mem_cons_self, tyContains_self ty⟩)
  simp [isStrictTypeArgumentGrowth, tysComplexity, typeComplexity, inside]

/-- `f<A, B>` calls `f<B, i64*>`. -/
def shifting : CheckedProgram := looping [.primitive .i64, .primitive .i64] fun _ args =>
  args.tail ++ [.pointer false .readOnly (.primitive .i64)]

/-- The arguments grow twice, and then they are the same. -/
theorem growth_reported_finite :
    (∃ chain, .infiniteGenericInstantiation 1 chain ∈ (shifting.after 3).diagnostics) ∧
      {key | shifting.Called shifting.numbering (.generic key)}.Finite := by
  let pointer : Ty := .pointer false .readOnly (.primitive .i64)
  let three : List (List Ty) :=
    [[.primitive .i64, .primitive .i64], [.primitive .i64, pointer], [pointer, pointer]]
  have closed : ∀ args ∈ three, args.tail ++ [pointer] ∈ three := by decide
  refine ⟨⟨three.map (TypeExpansionFrame.mk 1), by decide⟩, ?_⟩
  refine ((List.finite_toSet three).image (Prod.mk 1)).subset fun key called => ?_
  obtain ⟨args, rfl, inside⟩ := called_looping (fun _ => closed) List.mem_cons_self called
  exact Set.mem_image_of_mem _ inside

end CheckedProgram

end Ciel.Mono
