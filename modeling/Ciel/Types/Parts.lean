import Ciel.Types.Identity

/-!
# Rebuilding a type from its parts

`mapParts` replaces the types directly inside a type, wherever they stand, and
keeps everything else. Functions that go through a whole type are this map
except at the few forms they are about, so a fact about such a function needs
those forms and the algebra of the map, and not a case for every form of type.

`rebuild` is the recursion that such functions have in common. It is used to define
what they are compared with.
-/

namespace Ciel.Types

variable {f g : Ty → Ty}

/-- Replace the types in the entries of a state. -/
def mapState (f : Ty → Ty) (state : List (String × Ty)) : List (String × Ty) :=
  state.map fun entry => (entry.1, f entry.2)

@[simp] theorem map_snd_mapState (f : Ty → Ty) (state : List (String × Ty)) :
    (mapState f state).map Prod.snd = (state.map Prod.snd).map f := by
  simp [mapState]

theorem mapState_append (f : Ty → Ty) (first second : List (String × Ty)) :
    mapState f (first ++ second) = mapState f first ++ mapState f second := by
  simp [mapState]

theorem mapState_congr {state : List (String × Ty)}
    (same : ∀ ty ∈ state.map Prod.snd, f ty = g ty) : mapState f state = mapState g state := by
  apply List.map_congr_left
  intro entry member
  rw [same entry.2 (List.mem_map_of_mem member)]

theorem mapState_mapState (f g : Ty → Ty) (state : List (String × Ty)) :
    mapState g (mapState f state) = mapState (g ∘ f) state := by
  simp [mapState]

/-- Replace the arguments of a constraint. -/
def ConstraintRef.mapArgs (f : Ty → Ty) : ConstraintRef → ConstraintRef
  | .mk defId name args => .mk defId name (args.map f)

def ConstraintBounds.mapArgs (f : Ty → Ty) : ConstraintBounds → ConstraintBounds
  | .mk positive negative =>
    .mk (positive.map (ConstraintRef.mapArgs f)) (negative.map (ConstraintRef.mapArgs f))

@[simp] theorem ConstraintRef.args_mapArgs (f : Ty → Ty) (ref : ConstraintRef) :
    (ref.mapArgs f).args = ref.args.map f := by
  cases ref
  rfl

@[simp] theorem ConstraintBounds.tys_mapArgs (f : Ty → Ty) (bounds : ConstraintBounds) :
    (bounds.mapArgs f).tys = bounds.tys.map f := by
  obtain ⟨positive, negative⟩ := bounds
  simp [mapArgs, tys, ConstraintBounds.positive, ConstraintBounds.negative, List.flatMap_append,
    List.flatMap_map, List.map_flatMap]

theorem ConstraintRef.mapArgs_congr {ref : ConstraintRef} (same : ∀ ty ∈ ref.args, f ty = g ty) :
    ref.mapArgs f = ref.mapArgs g := by
  obtain ⟨defId, name, args⟩ := ref
  have sameArgs : args.map f = args.map g := List.map_congr_left same
  rw [mapArgs, mapArgs, sameArgs]

theorem ConstraintBounds.mapArgs_congr {bounds : ConstraintBounds}
    (same : ∀ ty ∈ bounds.tys, f ty = g ty) : bounds.mapArgs f = bounds.mapArgs g := by
  obtain ⟨positive, negative⟩ := bounds
  have each {refs : List ConstraintRef} (inTys : refs ⊆ positive ++ negative) :
      refs.map (ConstraintRef.mapArgs f) = refs.map (ConstraintRef.mapArgs g) := by
    apply List.map_congr_left
    intro ref member
    apply ConstraintRef.mapArgs_congr
    intro ty inArgs
    exact same ty (List.mem_flatMap.mpr ⟨ref, inTys member, inArgs⟩)
  rw [mapArgs, mapArgs, each (List.subset_append_left _ _), each (List.subset_append_right _ _)]

theorem ConstraintRef.mapArgs_mapArgs (f g : Ty → Ty) (ref : ConstraintRef) :
    (ref.mapArgs f).mapArgs g = ref.mapArgs (g ∘ f) := by
  cases ref
  simp [mapArgs]

theorem ConstraintBounds.mapArgs_mapArgs (f g : Ty → Ty) (bounds : ConstraintBounds) :
    (bounds.mapArgs f).mapArgs g = bounds.mapArgs (g ∘ f) := by
  cases bounds
  simp [mapArgs, ConstraintRef.mapArgs_mapArgs]

theorem ConstraintBounds.mapArgs_id (bounds : ConstraintBounds) : bounds.mapArgs id = bounds := by
  have each (refs : List ConstraintRef) : refs.map (ConstraintRef.mapArgs id) = refs := by
    induction refs with
    | nil => rfl
    | cons ref refs ih =>
      cases ref
      rw [List.map_cons, ih, ConstraintRef.mapArgs, List.map_id]
  cases bounds
  rw [mapArgs, each, each]

namespace Ty

def isOpaqueState : Ty → Bool
  | .opaqueState _ _ => true
  | _ => false

/-- Replace the types directly inside a type. -/
def mapParts (f : Ty → Ty) : Ty → Ty
  | .pointer nullable mutability inner => .pointer nullable mutability (f inner)
  | .array len elem => .array len (f elem)
  | .slice mutability elem => .slice mutability (f elem)
  | .named defId name args => .named defId name (args.map f)
  | .generatedFuture name output cancelSafe abortable affineState state =>
    .generatedFuture name (f output) cancelSafe abortable affineState (mapState f state)
  | .opaqueState base state => .opaqueState (f base) (mapState f state)
  | .dynamicInterface defId name args => .dynamicInterface defId name (args.map f)
  | .opaqueReturn defId args bounds => .opaqueReturn defId (args.map f) (bounds.mapArgs f)
  | .function isUnsafe abi ret params => .function isUnsafe abi (f ret) (params.map f)
  | .closure ret params constraints => .closure (f ret) (params.map f) (constraints.mapArgs f)
  | .closureInstance id ret params captures =>
    .closureInstance id (f ret) (params.map f) (captures.map f)
  | other => other

@[simp] theorem children_mapParts (f : Ty → Ty) (ty : Ty) :
    (ty.mapParts f).children = ty.children.map f := by
  cases ty <;> simp [mapParts, children]

theorem mapParts_congr {ty : Ty} (same : ∀ part ∈ ty.children, f part = g part) :
    ty.mapParts f = ty.mapParts g := by
  have many {tys : List Ty} (inside : tys ⊆ ty.children) : tys.map f = tys.map g :=
    List.map_congr_left fun part member => same part (inside member)
  have states {state : List (String × Ty)} (inside : state.map Prod.snd ⊆ ty.children) :
      mapState f state = mapState g state :=
    mapState_congr fun part member => same part (inside member)
  have bounded {bounds : ConstraintBounds} (inside : bounds.tys ⊆ ty.children) :
      bounds.mapArgs f = bounds.mapArgs g :=
    ConstraintBounds.mapArgs_congr fun part member => same part (inside member)
  cases ty with
  | hole | never | void | primitive | cSpelling | generic | unknown => rfl
  | _ =>
    simp only [children, List.cons_append] at same many states bounded
    simp [mapParts, same, many, states, bounded]

theorem mapParts_mapParts (f g : Ty → Ty) (ty : Ty) :
    (ty.mapParts f).mapParts g = ty.mapParts (g ∘ f) := by
  cases ty <;> simp [mapParts, mapState_mapState, ConstraintBounds.mapArgs_mapArgs]

theorem mapParts_id (ty : Ty) : ty.mapParts id = ty := by
  have states (state : List (String × Ty)) : mapState id state = state := List.map_id state
  cases ty <;> simp [mapParts, states, ConstraintBounds.mapArgs_id]

end Ty

/-! ## Rebuilding from the inside out -/

mutual

/-- Rebuild the parts of a type, and then let `post` see the type and what it has
become. -/
def rebuild (post : Ty → Ty → Ty) : Ty → Ty
  | .pointer nullable mutability inner =>
    post (.pointer nullable mutability inner) (.pointer nullable mutability (rebuild post inner))
  | .array len elem => post (.array len elem) (.array len (rebuild post elem))
  | .slice mutability elem => post (.slice mutability elem) (.slice mutability (rebuild post elem))
  | .named defId name args =>
    post (.named defId name args) (.named defId name (rebuildTys post args))
  | .generatedFuture name output cancelSafe abortable affineState state =>
    post (.generatedFuture name output cancelSafe abortable affineState state)
      (.generatedFuture name (rebuild post output) cancelSafe abortable affineState
        (rebuildState post state))
  | .opaqueState base state =>
    post (.opaqueState base state) (.opaqueState (rebuild post base) (rebuildState post state))
  | .dynamicInterface defId name args =>
    post (.dynamicInterface defId name args) (.dynamicInterface defId name (rebuildTys post args))
  | .opaqueReturn defId args bounds =>
    post (.opaqueReturn defId args bounds)
      (.opaqueReturn defId (rebuildTys post args) (rebuildBounds post bounds))
  | .function isUnsafe abi ret params =>
    post (.function isUnsafe abi ret params)
      (.function isUnsafe abi (rebuild post ret) (rebuildTys post params))
  | .closure ret params constraints =>
    post (.closure ret params constraints)
      (.closure (rebuild post ret) (rebuildTys post params) (rebuildBounds post constraints))
  | .closureInstance id ret params captures =>
    post (.closureInstance id ret params captures)
      (.closureInstance id (rebuild post ret) (rebuildTys post params) (rebuildTys post captures))
  | .hole id => post (.hole id) (.hole id)
  | .never => post .never .never
  | .void => post .void .void
  | .primitive primitive => post (.primitive primitive) (.primitive primitive)
  | .cSpelling defId abi spelling =>
    post (.cSpelling defId abi spelling) (.cSpelling defId abi spelling)
  | .generic name => post (.generic name) (.generic name)
  | .unknown => post .unknown .unknown

def rebuildTys (post : Ty → Ty → Ty) : List Ty → List Ty
  | [] => []
  | ty :: tys => rebuild post ty :: rebuildTys post tys

def rebuildState (post : Ty → Ty → Ty) : List (String × Ty) → List (String × Ty)
  | [] => []
  | entry :: entries => rebuildEntry post entry :: rebuildState post entries

def rebuildEntry (post : Ty → Ty → Ty) : String × Ty → String × Ty
  | (name, ty) => (name, rebuild post ty)

def rebuildRef (post : Ty → Ty → Ty) : ConstraintRef → ConstraintRef
  | .mk defId name args => .mk defId name (rebuildTys post args)

def rebuildRefs (post : Ty → Ty → Ty) : List ConstraintRef → List ConstraintRef
  | [] => []
  | entry :: entries => rebuildRef post entry :: rebuildRefs post entries

def rebuildBounds (post : Ty → Ty → Ty) : ConstraintBounds → ConstraintBounds
  | .mk positive negative => .mk (rebuildRefs post positive) (rebuildRefs post negative)

end

theorem rebuild_eq (post : Ty → Ty → Ty) (ty : Ty) :
    rebuild post ty = post ty (ty.mapParts (rebuild post)) := by
  have list (tys : List Ty) : rebuildTys post tys = tys.map (rebuild post) := by
    induction tys with
    | nil => rfl
    | cons ty tys ih => rw [rebuildTys, ih, List.map_cons]
  have states (state : List (String × Ty)) :
      rebuildState post state = mapState (rebuild post) state := by
    induction state with
    | nil => rfl
    | cons entry state ih =>
      cases entry
      rw [rebuildState, ih]
      rfl
  have refs (entries : List ConstraintRef) :
      rebuildRefs post entries = entries.map (ConstraintRef.mapArgs (rebuild post)) := by
    induction entries with
    | nil => rfl
    | cons ref entries ih =>
      cases ref
      rw [rebuildRefs, ih, rebuildRef, list]
      rfl
  have bounded (bounds : ConstraintBounds) :
      rebuildBounds post bounds = bounds.mapArgs (rebuild post) := by
    cases bounds
    rw [rebuildBounds, refs, refs]
    rfl
  cases ty <;> simp [rebuild, Ty.mapParts, list, states, bounded]

/-! ## Substitution as a map of the parts -/

theorem substituteState_eq (subst : TySubst) (state : List (String × Ty)) :
    substituteState subst state = mapState (substituteTy subst) state := by
  induction state with
  | nil => rfl
  | cons entry state ih =>
    cases entry
    rw [substituteState, ih]
    rfl

theorem substituteConstraintBounds_eq (subst : TySubst) (bounds : ConstraintBounds) :
    substituteConstraintBounds subst bounds = bounds.mapArgs (substituteTy subst) := by
  have each (refs : List ConstraintRef) :
      substituteConstraintRefs subst refs = refs.map
        (ConstraintRef.mapArgs (substituteTy subst)) := by
    induction refs with
    | nil => rfl
    | cons ref refs ih =>
      cases ref
      rw [substituteConstraintRefs, ih, substituteConstraintRef, substituteTys_eq_map]
      rfl
  cases bounds
  rw [substituteConstraintBounds, each, each]
  rfl

namespace Ty

/-- The forms that substitution treats in a way of their own. -/
def isGenericOrState : Ty → Bool
  | .generic _ | .opaqueState _ _ => true
  | _ => false

end Ty

theorem substituteTy_eq_mapParts {subst : TySubst} {ty : Ty}
    (ordinary : ty.isGenericOrState = false) :
    substituteTy subst ty = ty.mapParts (substituteTy subst) := by
  cases ty with
  | generic | opaqueState => cases ordinary
  | _ =>
    simp [substituteTy, Ty.mapParts, substituteTys_eq_map, substituteState_eq,
      substituteConstraintBounds_eq]

end Ciel.Types
