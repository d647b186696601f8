import Ciel.Types.Ty

/-!
# Structural induction and equality of types

Types are nested through argument lists, state entries and constraint bounds.
`children` lists the types directly inside a type, wherever they stand, and the
induction rule is stated over it, so that a proof about all types has one case
for each form of type and none for the lists in between.

Equality is the compiler's derived one: every field takes part, also names and
opaque states.
-/

namespace Ciel.Types

deriving instance Repr for Ty, ConstraintRef, ConstraintBounds

namespace ConstraintRef

def defId : ConstraintRef → DefId
  | .mk defId _ _ => defId

def name : ConstraintRef → String
  | .mk _ name _ => name

def args : ConstraintRef → List Ty
  | .mk _ _ args => args

end ConstraintRef

namespace ConstraintBounds

def positive : ConstraintBounds → List ConstraintRef
  | .mk positive _ => positive

def negative : ConstraintBounds → List ConstraintRef
  | .mk _ negative => negative

def isEmpty (bounds : ConstraintBounds) : Bool :=
  bounds.positive.isEmpty && bounds.negative.isEmpty

/-- The types that the bounds mention. -/
def tys (bounds : ConstraintBounds) : List Ty :=
  (bounds.positive ++ bounds.negative).flatMap ConstraintRef.args

end ConstraintBounds

/-- The types directly inside a type. -/
def Ty.children : Ty → List Ty
  | .hole _ | .never | .void | .primitive _ | .cSpelling _ _ _ | .generic _ | .unknown => []
  | .pointer _ _ inner => [inner]
  | .array _ elem => [elem]
  | .slice _ elem => [elem]
  | .named _ _ args => args
  | .generatedFuture _ output _ _ _ state => output :: state.map Prod.snd
  | .opaqueState base state => base :: state.map Prod.snd
  | .dynamicInterface _ _ args => args
  | .opaqueReturn _ args bounds => args ++ bounds.tys
  | .function _ _ ret params => ret :: params
  | .closure ret params constraints => ret :: params ++ constraints.tys
  | .closureInstance _ ret params captures => ret :: params ++ captures

theorem Ty.sizeOf_lt_of_mem_children {ty c : Ty} (member : c ∈ ty.children) :
    sizeOf c < sizeOf ty := by
  have inState {state : List (String × Ty)} (h : c ∈ state.map Prod.snd) :
      sizeOf c < sizeOf state := by
    obtain ⟨⟨name, ty⟩, entry, same⟩ := List.mem_map.mp h
    have := List.sizeOf_lt_of_mem entry
    rw [Prod.mk.sizeOf_spec, show ty = c from same] at this
    omega
  have inRefs {refs : List ConstraintRef} (h : c ∈ refs.flatMap ConstraintRef.args) :
      sizeOf c < sizeOf refs := by
    obtain ⟨⟨defId, name, args⟩, entry, inArgs⟩ := List.mem_flatMap.mp h
    have := List.sizeOf_lt_of_mem entry
    have := List.sizeOf_lt_of_mem (show c ∈ args from inArgs)
    simp only [ConstraintRef.mk.sizeOf_spec] at *
    omega
  have inBounds {bounds : ConstraintBounds} (h : c ∈ bounds.tys) : sizeOf c < sizeOf bounds := by
    obtain ⟨positive, negative⟩ := bounds
    rw [ConstraintBounds.tys, List.flatMap_append, List.mem_append] at h
    rw [ConstraintBounds.mk.sizeOf_spec]
    obtain h | h := h
    all_goals
      have := inRefs h
      simp only [ConstraintBounds.positive, ConstraintBounds.negative] at this
      omega
  -- what is left is which part of the type the child stands in
  have inArgs {args : List Ty} (h : c ∈ args) : sizeOf c < sizeOf args := List.sizeOf_lt_of_mem h
  cases ty with
  | hole | never | void | primitive | cSpelling | generic | unknown => cases member
  | _ =>
    simp only [children, List.mem_cons, List.mem_append, List.cons_append] at member
    simp
    grind

@[simp] theorem subset_cons_append_left {α : Type*} (x : α) (l l' : List α) : l ⊆ x :: (l ++ l') :=
  List.subset_cons_of_subset x (List.subset_append_left l l')

@[simp] theorem subset_cons_append_right {α : Type*} (x : α) (l l' : List α) :
    l' ⊆ x :: (l ++ l') :=
  List.subset_cons_of_subset x (List.subset_append_right l l')

/-- Induction over types: what holds of a type whenever it holds of its
children holds of every type. -/
@[induction_eliminator]
theorem Ty.induction {P : Ty → Prop} (step : ∀ ty, (∀ c ∈ ty.children, P c) → P ty) (ty : Ty) :
    P ty :=
  step ty fun c member =>
    have := Ty.sizeOf_lt_of_mem_children member
    Ty.induction step c
termination_by sizeOf ty

mutual

def tyBeq : Ty → Ty → Bool
  | .hole a, .hole b => a == b
  | .never, .never => true
  | .void, .void => true
  | .primitive a, .primitive b => a == b
  | .cSpelling d a s, .cSpelling d' a' s' => d == d' && a == a' && s == s'
  | .pointer n m t, .pointer n' m' t' => n == n' && m == m' && tyBeq t t'
  | .array l t, .array l' t' => l == l' && tyBeq t t'
  | .slice m t, .slice m' t' => m == m' && tyBeq t t'
  | .named d n ts, .named d' n' ts' => d == d' && n == n' && tysBeq ts ts'
  | .generatedFuture n t a b c s, .generatedFuture n' t' a' b' c' s' =>
    n == n' && tyBeq t t' && a == a' && b == b' && c == c' && stateBeq s s'
  | .opaqueState t s, .opaqueState t' s' => tyBeq t t' && stateBeq s s'
  | .generic n, .generic n' => n == n'
  | .dynamicInterface d n ts, .dynamicInterface d' n' ts' => d == d' && n == n' && tysBeq ts ts'
  | .opaqueReturn d ts b, .opaqueReturn d' ts' b' => d == d' && tysBeq ts ts' && boundsBeq b b'
  | .function u a t ts, .function u' a' t' ts' =>
    u == u' && a == a' && tyBeq t t' && tysBeq ts ts'
  | .closure t ts b, .closure t' ts' b' => tyBeq t t' && tysBeq ts ts' && boundsBeq b b'
  | .closureInstance i t ts cs, .closureInstance i' t' ts' cs' =>
    i == i' && tyBeq t t' && tysBeq ts ts' && tysBeq cs cs'
  | .unknown, .unknown => true
  | _, _ => false
termination_by structural a => a

def tysBeq : List Ty → List Ty → Bool
  | [], [] => true
  | t :: ts, t' :: ts' => tyBeq t t' && tysBeq ts ts'
  | _, _ => false
termination_by structural a => a

def stateBeq : List (String × Ty) → List (String × Ty) → Bool
  | [], [] => true
  | e :: es, e' :: es' => entryBeq e e' && stateBeq es es'
  | _, _ => false
termination_by structural a => a

def entryBeq : String × Ty → String × Ty → Bool
  | (n, t), (n', t') => n == n' && tyBeq t t'
termination_by structural a => a

def refBeq : ConstraintRef → ConstraintRef → Bool
  | .mk d n ts, .mk d' n' ts' => d == d' && n == n' && tysBeq ts ts'
termination_by structural a => a

def refsBeq : List ConstraintRef → List ConstraintRef → Bool
  | [], [] => true
  | e :: es, e' :: es' => refBeq e e' && refsBeq es es'
  | _, _ => false
termination_by structural a => a

def boundsBeq : ConstraintBounds → ConstraintBounds → Bool
  | .mk ps ns, .mk ps' ns' => refsBeq ps ps' && refsBeq ns ns'
termination_by structural a => a

end

/-- The comparison of `t` with anything is right. -/
def Compares (t : Ty) : Prop := ∀ t', tyBeq t t' = true ↔ t = t'

theorem tysBeq_iff : ∀ {ts : List Ty}, (∀ t ∈ ts, Compares t) →
    ∀ ts', tysBeq ts ts' = true ↔ ts = ts'
  | [], _, [] => by simp [tysBeq]
  | [], _, _ :: _ => by simp [tysBeq]
  | _ :: _, _, [] => by simp [tysBeq]
  | t :: ts, all, t' :: ts' => by
    rw [tysBeq, Bool.and_eq_true, all t List.mem_cons_self t',
      tysBeq_iff (fun u member => all u (List.mem_cons_of_mem _ member)) ts', List.cons.injEq]

theorem stateBeq_iff : ∀ {state : List (String × Ty)}, (∀ t ∈ state.map Prod.snd, Compares t) →
    ∀ state', stateBeq state state' = true ↔ state = state'
  | [], _, [] => by simp [stateBeq]
  | [], _, _ :: _ => by simp [stateBeq]
  | _ :: _, _, [] => by simp [stateBeq]
  | (n, t) :: rest, all, (n', t') :: rest' => by
    rw [stateBeq, entryBeq, Bool.and_eq_true, Bool.and_eq_true, beq_iff_eq,
      all t (by simp) t',
        stateBeq_iff (fun u member => all u (List.mem_cons_of_mem _ member)) rest',
      List.cons.injEq, Prod.mk.injEq]

theorem refsBeq_iff : ∀ {refs : List ConstraintRef},
    (∀ t ∈ refs.flatMap ConstraintRef.args, Compares t) →
    ∀ refs', refsBeq refs refs' = true ↔ refs = refs'
  | [], _, [] => by simp [refsBeq]
  | [], _, _ :: _ => by simp [refsBeq]
  | _ :: _, _, [] => by simp [refsBeq]
  | .mk d n ts :: rest, all, .mk d' n' ts' :: rest' => by
    rw [List.flatMap_cons] at all
    have inArgs : ∀ t ∈ ts, Compares t := fun u member => all u (List.mem_append_left _ member)
    rw [refsBeq, refBeq, Bool.and_eq_true, Bool.and_eq_true, Bool.and_eq_true, beq_iff_eq,
      beq_iff_eq, tysBeq_iff inArgs ts',
      refsBeq_iff (fun u member => all u (List.mem_append_right _ member)) rest',
      List.cons.injEq, ConstraintRef.mk.injEq, and_assoc, and_assoc, and_assoc, and_assoc]

theorem boundsBeq_iff {bounds : ConstraintBounds} (all : ∀ t ∈ bounds.tys, Compares t)
    (bounds' : ConstraintBounds) : boundsBeq bounds bounds' = true ↔ bounds = bounds' := by
  obtain ⟨positive, negative⟩ := bounds
  obtain ⟨positive', negative'⟩ := bounds'
  rw [ConstraintBounds.tys, List.flatMap_append] at all
  have inPositive : ∀ t ∈ positive.flatMap ConstraintRef.args, Compares t :=
    fun u member => all u (List.mem_append_left _ member)
  have inNegative : ∀ t ∈ negative.flatMap ConstraintRef.args, Compares t :=
    fun u member => all u (List.mem_append_right _ member)
  rw [boundsBeq, Bool.and_eq_true, refsBeq_iff inPositive, refsBeq_iff inNegative,
    ConstraintBounds.mk.injEq]

theorem tyBeq_iff (t : Ty) : Compares t := by
  induction t with
  | step t ih =>
    -- the comparisons of the parts, for the parts that the form of type has
    have one {u : Ty} (h : u ∈ t.children) : ∀ u', tyBeq u u' = true ↔ u = u' := ih u h
    have many {l : List Ty} (h : l ⊆ t.children) (l' : List Ty) :
        tysBeq l l' = true ↔ l = l' := tysBeq_iff (fun u member => ih u (h member)) l'
    have states {es : List (String × Ty)} (h : es.map Prod.snd ⊆ t.children)
        (es' : List (String × Ty)) : stateBeq es es' = true ↔ es = es' :=
      stateBeq_iff (fun u member => ih u (h member)) es'
    have bounded {b : ConstraintBounds} (h : b.tys ⊆ t.children) (b' : ConstraintBounds) :
        boundsBeq b b' = true ↔ b = b' := boundsBeq_iff (fun u member => ih u (h member)) b'
    intro t'
    cases t with
    | _ =>
      simp only [Ty.children, List.cons_append] at one many states bounded
      cases t' <;> simp [tyBeq, one, many, states, bounded, and_assoc]

instance : DecidableEq Ty := fun a b => decidable_of_iff _ (tyBeq_iff a b)

instance : DecidableEq ConstraintRef := fun a b =>
  decidable_of_iff (refBeq a b = true) (by
    have := @refsBeq_iff [a] (fun t _ => tyBeq_iff t) [b]
    simpa [refsBeq] using this)

instance : DecidableEq ConstraintBounds := fun _ b =>
  decidable_of_iff _ (boundsBeq_iff (fun t _ => tyBeq_iff t) b)

example : Ty.named none "Option" [.void] ≠ Ty.named none "Option" [.never] := by decide

end Ciel.Types
