import Halyard.Axum.RoutePath

/-!
# The registry of routes

`RouteRegistry::admit` refuses what axum's router would panic on.

* `RouteRegistry.Holds.admitRoute`: a call is admitted if its method can be filtered, its path can be read, and it
  is compatible with the calls admitted so far.
* `registry_admits`: what holds of the admitted calls of any run.
-/

namespace Halyard.Axum

variable {Method Filter : Type} [DecidableEq Method]

inductive RouteError (Method : Type)
  | unsupportedMethod (path : List UInt8) (method : Method)
  | invalidPath (path : List UInt8) (reason : PathError)
  | duplicate (path : List UInt8) (method : Method)
  | conflict (path existing : List UInt8)
  deriving DecidableEq

structure RegisteredPath (Method : Type) where
  path : List UInt8
  parsed : RoutePath
  methods : List Method
  deriving DecidableEq

/-- The routes added to one router so far. -/
structure RouteRegistry (Method : Type) where
  routes : List (RegisteredPath Method) := []
  deriving DecidableEq

/-- A method is added to the first route of a path. -/
def pushMethod (path : List UInt8) (method : Method) :
    List (RegisteredPath Method) → List (RegisteredPath Method)
  | [] => []
  | route :: rest =>
      if route.path = path then { route with methods := route.methods ++ [method] } :: rest
      else route :: pushMethod path method rest

/-- `filterOf` is `MethodFilter::try_from`. -/
def RouteRegistry.admitRoute (filterOf : Method → Option Filter) (registry : RouteRegistry Method)
    (path : List UInt8) (method : Method) :
    Except (RouteError Method) Filter × RouteRegistry Method :=
  match filterOf method with
  | none => (.error (.unsupportedMethod path method), registry)
  | some filter =>
      match parse path with
      | .error reason => (.error (.invalidPath path reason), registry)
      | .ok parsed =>
          match registry.routes.find? fun route => route.path = path with
          | some existing =>
              if method ∈ existing.methods then (.error (.duplicate path method), registry)
              else (.ok filter, ⟨pushMethod path method registry.routes⟩)
          | none =>
              match registry.routes.find? fun route => conflictsWith route.parsed parsed with
              | some existing => (.error (.conflict path existing.path), registry)
              | none => (.ok filter, ⟨registry.routes ++ [⟨path, parsed, [method]⟩]⟩)

/-- A call of `admit`. -/
structure Call (Method : Type) where
  path : List UInt8
  method : Method
  deriving DecidableEq

/-- The calls in turn: the registry after them, and those that were admitted. -/
def admitAll (filterOf : Method → Option Filter) :
    List (Call Method) → RouteRegistry Method → RouteRegistry Method × List (Call Method)
  | [], registry => (registry, [])
  | call :: calls, registry =>
      match registry.admitRoute filterOf call.path call.method with
      | (.ok _, next) =>
          let later := admitAll filterOf calls next
          (later.1, call :: later.2)
      | (.error _, next) => admitAll filterOf calls next

/-- Every one of the calls is admitted. -/
def AllAdmitted (filterOf : Method → Option Filter) (calls : List (Call Method)) : Prop :=
  (admitAll filterOf calls {}).2 = calls

/-! ## Compatible calls -/

/-- Two paths that one router can hold. -/
def Apart (path other : List UInt8) : Prop :=
  path ≠ other → ∀ parsed parsed', parse path = .ok parsed → parse other = .ok parsed' →
    conflictsWith parsed parsed' = false

/-- Two calls that one router can hold. -/
def Call.Compatible (call other : Call Method) : Prop :=
  call ≠ other ∧ Apart call.path other.path

/-- A call that a router can hold alone. -/
def Call.Valid (filterOf : Method → Option Filter) (call : Call Method) : Prop :=
  filterOf call.method ≠ none ∧ ∃ parsed, parse call.path = .ok parsed

omit [DecidableEq Method] in
theorem Apart.symm {path other : List UInt8} (apart : Apart path other) : Apart other path := by
  intro differ parsed parsed' read read'
  rw [conflictsWith_comm]
  exact apart (Ne.symm differ) parsed' parsed read' read

omit [DecidableEq Method] in
theorem Call.Compatible.symm {call other : Call Method} (compatible : call.Compatible other) :
    other.Compatible call :=
  ⟨Ne.symm compatible.1, compatible.2.symm⟩

/-! ## What a registry holds -/

/-- The registry's routes stand for the admitted calls, in any order. -/
structure RouteRegistry.Holds (registry : RouteRegistry Method) (admitted : List (Call Method)) : Prop where
  parsed : ∀ route ∈ registry.routes, parse route.path = .ok route.parsed
  calls : ∀ path method, (⟨path, method⟩ : Call Method) ∈ admitted ↔
    ∃ route ∈ registry.routes, route.path = path ∧ method ∈ route.methods
  used : ∀ route ∈ registry.routes, route.methods ≠ []
  paths : registry.routes.Pairwise fun route other => route.path ≠ other.path
  apart : registry.routes.Pairwise fun route other => Apart route.path other.path

section Push

variable {path : List UInt8} {method : Method} {routes : List (RegisteredPath Method)}

omit [DecidableEq Method] in
theorem fields_pushMethod (path : List UInt8) (method : Method) (routes : List (RegisteredPath Method)) :
    (pushMethod path method routes).map (fun route => (route.path, route.parsed)) =
      routes.map fun route => (route.path, route.parsed) := by
  induction routes with
  | nil => rfl
  | cons route rest ih =>
    rw [pushMethod]
    split
    next => rfl
    next => rw [List.map_cons, List.map_cons, ih]

omit [DecidableEq Method] in
theorem pairwise_pushMethod {R : List UInt8 → List UInt8 → Prop}
    (pairwise : routes.Pairwise fun route other => R route.path other.path) :
    (pushMethod path method routes).Pairwise fun route other => R route.path other.path := by
  have fields : (routes.map fun route => (route.path, route.parsed)).Pairwise
      fun pair other => R pair.1 other.1 := List.pairwise_map.mpr pairwise
  rw [← fields_pushMethod path method] at fields
  simpa only [List.pairwise_map] using fields

omit [DecidableEq Method] in
theorem mem_fields_pushMethod {route : RegisteredPath Method}
    (there : route ∈ pushMethod path method routes) :
    ∃ before ∈ routes, before.path = route.path ∧ before.parsed = route.parsed := by
  have pair : (route.path, route.parsed) ∈ routes.map fun route => (route.path, route.parsed) := by
    rw [← fields_pushMethod path method]
    exact List.mem_map_of_mem there
  obtain ⟨before, mem, same⟩ := List.mem_map.mp pair
  exact ⟨before, mem, (Prod.mk.inj same).1, (Prod.mk.inj same).2⟩

omit [DecidableEq Method] in
theorem methods_pushMethod (used : ∀ route ∈ routes, route.methods ≠ []) :
    ∀ route ∈ pushMethod path method routes, route.methods ≠ [] := by
  induction routes with
  | nil => exact used
  | cons first rest ih =>
    intro route there
    rw [pushMethod] at there
    split at there
    next =>
      rcases List.mem_cons.mp there with rfl | later
      · exact List.append_ne_nil_of_right_ne_nil _ (List.cons_ne_nil _ _)
      · exact used route (List.mem_cons_of_mem _ later)
    next =>
      rcases List.mem_cons.mp there with rfl | later
      · exact used route List.mem_cons_self
      · exact ih (fun other mem => used other (List.mem_cons_of_mem _ mem)) route later

omit [DecidableEq Method] in
/-- The pairs of a path and a method that are registered after one has been added. -/
theorem registered_pushMethod (present : ∃ route ∈ routes, route.path = path) (other : List UInt8)
    (added : Method) :
    (∃ route ∈ pushMethod path method routes, route.path = other ∧ added ∈ route.methods) ↔
      (other = path ∧ added = method) ∨
        ∃ route ∈ routes, route.path = other ∧ added ∈ route.methods := by
  induction routes with
  | nil => exact absurd present fun ⟨_, there, _⟩ => List.not_mem_nil there
  | cons first rest ih =>
    rw [pushMethod]
    by_cases same : first.path = path
    · rw [if_pos same]
      simp only [List.mem_cons, exists_eq_or_imp, List.mem_append]
      constructor
      · rintro (⟨here, old | new⟩ | later)
        · exact Or.inr (Or.inl ⟨here, old⟩)
        · exact Or.inl ⟨here.symm.trans same, new.resolve_right List.not_mem_nil⟩
        · exact Or.inr (Or.inr later)
      · rintro (⟨here, new⟩ | ⟨here, old⟩ | later)
        · exact Or.inl ⟨same.trans here.symm, Or.inr (Or.inl new)⟩
        · exact Or.inl ⟨here, Or.inl old⟩
        · exact Or.inr later
    · rw [if_neg same]
      have later : ∃ route ∈ rest, route.path = path := by
        obtain ⟨route, there, named⟩ := present
        rcases List.mem_cons.mp there with rfl | there
        · exact absurd named same
        · exact ⟨route, there, named⟩
      simp only [List.mem_cons, exists_eq_or_imp, ih later]
      exact or_left_comm

end Push

/-! ## One call -/

section Admit

variable {filterOf : Method → Option Filter} {registry : RouteRegistry Method}
  {admitted : List (Call Method)}

/-- What a call of `admit` can do. -/
inductive RouteRegistry.Admits (filterOf : Method → Option Filter) (registry : RouteRegistry Method)
    (path : List UInt8) (method : Method) :
    Except (RouteError Method) Filter × RouteRegistry Method → Prop
  | pushed (filter : Filter) (parsed : RoutePath) (existing : RegisteredPath Method)
      (filtered : filterOf method = some filter) (read : parse path = .ok parsed)
      (there : existing ∈ registry.routes) (named : existing.path = path)
      (unused : method ∉ existing.methods) :
      Admits filterOf registry path method (.ok filter, ⟨pushMethod path method registry.routes⟩)
  | added (filter : Filter) (parsed : RoutePath)
      (filtered : filterOf method = some filter) (read : parse path = .ok parsed)
      (unnamed : ∀ route ∈ registry.routes, route.path ≠ path)
      (apart : ∀ route ∈ registry.routes, conflictsWith route.parsed parsed = false) :
      Admits filterOf registry path method
        (.ok filter, ⟨registry.routes ++ [⟨path, parsed, [method]⟩]⟩)
  | invalid (error : RouteError Method)
      (invalid : ¬(⟨path, method⟩ : Call Method).Valid filterOf) :
      Admits filterOf registry path method (.error error, registry)
  | duplicate (error : RouteError Method) (existing : RegisteredPath Method)
      (there : existing ∈ registry.routes) (named : existing.path = path)
      (used : method ∈ existing.methods) :
      Admits filterOf registry path method (.error error, registry)
  | conflict (error : RouteError Method) (parsed : RoutePath) (existing : RegisteredPath Method)
      (read : parse path = .ok parsed) (there : existing ∈ registry.routes)
      (unnamed : existing.path ≠ path) (conflicts : conflictsWith existing.parsed parsed = true) :
      Admits filterOf registry path method (.error error, registry)

theorem RouteRegistry.admits (filterOf : Method → Option Filter) (registry : RouteRegistry Method)
    (path : List UInt8) (method : Method) :
    registry.Admits filterOf path method (registry.admitRoute filterOf path method) := by
  unfold admitRoute
  split
  next none => exact .invalid _ fun valid => valid.1 none
  next filter filtered =>
    split
    next reason failed =>
      refine .invalid _ fun valid => ?_
      obtain ⟨parsed, read⟩ := valid.2
      cases failed.symm.trans read
    next parsed read =>
      split
      next existing found =>
        have there := List.mem_of_find?_eq_some found
        have named : existing.path = path := by simpa using List.find?_some found
        split
        next used => exact .duplicate _ existing there named used
        next unused => exact .pushed filter parsed existing filtered read there named unused
      next unnamed =>
        have others : ∀ route ∈ registry.routes, route.path ≠ path := by
          simpa using unnamed
        split
        next existing found =>
          have there := List.mem_of_find?_eq_some found
          have conflicts : conflictsWith existing.parsed parsed = true :=
            List.find?_some (p := fun route : RegisteredPath Method => conflictsWith route.parsed parsed) found
          exact .conflict _ parsed existing read there (others existing there) conflicts
        next none =>
          refine .added filter parsed filtered read others ?_
          simpa using none

theorem RouteRegistry.admit_refused {path : List UInt8} {method : Method} {error : RouteError Method}
    (refused : (registry.admitRoute filterOf path method).1 = .error error) :
    (registry.admitRoute filterOf path method).2 = registry := by
  have admits := registry.admits filterOf path method
  generalize registry.admitRoute filterOf path method = outcome at admits refused
  cases admits with
  | pushed => cases refused
  | added => cases refused
  | invalid => rfl
  | duplicate => rfl
  | conflict => rfl

omit [DecidableEq Method] in
theorem RouteRegistry.Holds.new : (({} : RouteRegistry Method)).Holds [] where
  parsed _ there := absurd there List.not_mem_nil
  calls _ _ := by simp
  used _ there := absurd there List.not_mem_nil
  paths := List.Pairwise.nil
  apart := List.Pairwise.nil

omit [DecidableEq Method] in
theorem RouteRegistry.Holds.same_path (holds : registry.Holds admitted) {route other : RegisteredPath Method}
    (there : route ∈ registry.routes) (there' : other ∈ registry.routes) (same : route.path = other.path) :
    route = other := by
  by_contra differ
  have : Std.Symm fun route other : RegisteredPath Method => route.path ≠ other.path :=
    ⟨fun _ _ => Ne.symm⟩
  exact holds.paths.forall there there' differ same

omit [DecidableEq Method] in
theorem RouteRegistry.Holds.apart_of_mem (holds : registry.Holds admitted)
    {route other : RegisteredPath Method} (there : route ∈ registry.routes)
    (there' : other ∈ registry.routes) : Apart route.path other.path := by
  intro differ
  have distinct : route ≠ other := fun same => differ (congrArg RegisteredPath.path same)
  have : Std.Symm fun route other : RegisteredPath Method => Apart route.path other.path :=
    ⟨fun _ _ => Apart.symm⟩
  exact holds.apart.forall there there' distinct differ

omit [DecidableEq Method] in
/-- A registered path's calls: there is one, as every route has a method. -/
theorem RouteRegistry.Holds.exists_call (holds : registry.Holds admitted)
    {route : RegisteredPath Method} (there : route ∈ registry.routes) :
    ∃ method, (⟨route.path, method⟩ : Call Method) ∈ admitted := by
  obtain ⟨method, rest, methods⟩ := List.exists_cons_of_ne_nil (holds.used route there)
  refine ⟨method, (holds.calls _ _).mpr ⟨route, there, rfl, ?_⟩⟩
  rw [methods]
  exact List.mem_cons_self

omit [DecidableEq Method] in
theorem RouteRegistry.Holds.push (holds : registry.Holds admitted) {path : List UInt8} {method : Method}
    {existing : RegisteredPath Method} (there : existing ∈ registry.routes)
    (named : existing.path = path) :
    RouteRegistry.Holds ⟨pushMethod path method registry.routes⟩ (⟨path, method⟩ :: admitted) where
  parsed route mem := by
    obtain ⟨before, mem', path', parsed'⟩ := mem_fields_pushMethod mem
    rw [← path', ← parsed']
    exact holds.parsed before mem'
  calls other added := by
    rw [registered_pushMethod ⟨existing, there, named⟩, ← holds.calls, List.mem_cons, Call.mk.injEq]
  used := methods_pushMethod holds.used
  paths := pairwise_pushMethod holds.paths
  apart := pairwise_pushMethod holds.apart

omit [DecidableEq Method] in
theorem RouteRegistry.Holds.add (holds : registry.Holds admitted) {path : List UInt8} {method : Method}
    {parsed : RoutePath} (read : parse path = .ok parsed)
    (unnamed : ∀ route ∈ registry.routes, route.path ≠ path)
    (apart : ∀ route ∈ registry.routes, conflictsWith route.parsed parsed = false) :
    RouteRegistry.Holds ⟨registry.routes ++ [⟨path, parsed, [method]⟩]⟩
      (⟨path, method⟩ :: admitted) where
  parsed route mem := by
    rcases List.mem_append.mp mem with old | new
    · exact holds.parsed route old
    · rw [List.mem_singleton.mp new]
      exact read
  calls other added := by
    rw [List.mem_cons, holds.calls, Call.mk.injEq]
    simp only [List.mem_append, List.mem_singleton, or_and_right, exists_or, exists_eq_left]
    rw [or_comm, eq_comm]
  used route mem := by
    rcases List.mem_append.mp mem with old | new
    · exact holds.used route old
    · rw [List.mem_singleton.mp new]
      exact List.cons_ne_nil _ _
  paths := by
    refine List.pairwise_append.mpr ⟨holds.paths, List.pairwise_singleton _ _, ?_⟩
    intro route mem added new
    rw [List.mem_singleton.mp new]
    exact unnamed route mem
  apart := by
    refine List.pairwise_append.mpr ⟨holds.apart, List.pairwise_singleton _ _, ?_⟩
    intro route mem added new
    rw [List.mem_singleton.mp new]
    intro _ first second readFirst readSecond
    rw [← Except.ok.inj ((holds.parsed route mem).symm.trans readFirst),
      ← Except.ok.inj (read.symm.trans readSecond)]
    exact apart route mem

/-- A call is admitted if it is valid and compatible with those before, and refused if not. -/
theorem RouteRegistry.Holds.admitRoute (holds : registry.Holds admitted)
    (filterOf : Method → Option Filter) (call : Call Method) :
    (∃ filter next, registry.admitRoute filterOf call.path call.method = (.ok filter, next) ∧
        next.Holds (call :: admitted) ∧ call.Valid filterOf ∧
        ∀ other ∈ admitted, call.Compatible other) ∨
      ∃ error, registry.admitRoute filterOf call.path call.method = (.error error, registry) ∧
        ¬(call.Valid filterOf ∧ ∀ other ∈ admitted, call.Compatible other) := by
  have admits := registry.admits filterOf call.path call.method
  generalize registry.admitRoute filterOf call.path call.method = outcome at admits ⊢
  cases admits with
  | pushed filter parsed existing filtered read there named unused =>
    refine Or.inl ⟨filter, _, rfl, holds.push there named, ⟨?_, parsed, read⟩, ?_⟩
    · rw [filtered]
      exact Option.some_ne_none filter
    · intro other mem
      obtain ⟨route, mem', path', method'⟩ := (holds.calls other.path other.method).mp mem
      constructor
      · rintro rfl
        rw [holds.same_path there mem' (named.trans path'.symm)] at unused
        exact unused method'
      · rw [← named, ← path']
        exact holds.apart_of_mem there mem'
  | added filter parsed filtered read unnamed apart =>
    refine Or.inl ⟨filter, _, rfl, holds.add read unnamed apart, ⟨?_, parsed, read⟩, ?_⟩
    · rw [filtered]
      exact Option.some_ne_none filter
    · intro other mem
      obtain ⟨route, mem', path', method'⟩ := (holds.calls other.path other.method).mp mem
      have differ : call.path ≠ other.path := fun same => unnamed route mem' (path'.trans same.symm)
      refine ⟨fun same => differ (congrArg Call.path same), fun _ first second readFirst readSecond => ?_⟩
      have parsed' := holds.parsed route mem'
      rw [path'] at parsed'
      rw [conflictsWith_comm, ← Except.ok.inj (parsed'.symm.trans readSecond),
        ← Except.ok.inj (read.symm.trans readFirst)]
      exact apart route mem'
  | invalid error invalid => exact Or.inr ⟨error, rfl, fun both => invalid both.1⟩
  | duplicate error existing there named used =>
    refine Or.inr ⟨error, rfl, fun both => ?_⟩
    have mem : call ∈ admitted := (holds.calls call.path call.method).mpr ⟨existing, there, named, used⟩
    exact (both.2 call mem).1 rfl
  | conflict error parsed existing read there unnamed conflicts =>
    refine Or.inr ⟨error, rfl, fun both => ?_⟩
    obtain ⟨method, mem⟩ := holds.exists_call there
    have free := (both.2 _ mem).2 (Ne.symm unnamed) parsed existing.parsed read
      (holds.parsed existing there)
    rw [conflictsWith_comm, conflicts] at free
    cases free

end Admit

/-! ## Runs -/

section Runs

variable (filterOf : Method → Option Filter)

/-- Calls that one router can hold all together. -/
structure Compatible (calls : List (Call Method)) : Prop where
  valid : ∀ call ∈ calls, call.Valid filterOf
  pairwise : calls.Pairwise Call.Compatible

variable {filterOf}

omit [DecidableEq Method] in
theorem compatible_cons {call : Call Method} {calls : List (Call Method)} :
    Compatible filterOf (call :: calls) ↔
      call.Valid filterOf ∧ (∀ other ∈ calls, call.Compatible other) ∧ Compatible filterOf calls := by
  constructor
  · rintro ⟨valid, pairwise⟩
    obtain ⟨first, rest⟩ := List.pairwise_cons.mp pairwise
    exact ⟨valid call List.mem_cons_self, first,
      fun other mem => valid other (List.mem_cons_of_mem _ mem), rest⟩
  · rintro ⟨first, compatible, valid, pairwise⟩
    refine ⟨fun other mem => ?_, List.pairwise_cons.mpr ⟨compatible, pairwise⟩⟩
    rcases List.mem_cons.mp mem with rfl | mem
    · exact first
    · exact valid other mem

omit [DecidableEq Method] in
theorem compatible_perm {calls calls' : List (Call Method)} (perm : calls.Perm calls') :
    Compatible filterOf calls ↔ Compatible filterOf calls' := by
  constructor
  · rintro ⟨valid, pairwise⟩
    exact ⟨fun call mem => valid call (perm.mem_iff.mpr mem),
      (perm.pairwise_iff Call.Compatible.symm).mp pairwise⟩
  · rintro ⟨valid, pairwise⟩
    exact ⟨fun call mem => valid call (perm.mem_iff.mp mem),
      (perm.pairwise_iff Call.Compatible.symm).mpr pairwise⟩

theorem admitAll_compatible {registry : RouteRegistry Method} {admitted : List (Call Method)}
    (holds : registry.Holds admitted) (compatible : Compatible filterOf admitted)
    (calls : List (Call Method)) :
    Compatible filterOf ((admitAll filterOf calls registry).2.reverse ++ admitted) := by
  induction calls generalizing registry admitted with
  | nil => exact compatible
  | cons call rest ih =>
    rw [admitAll]
    rcases holds.admitRoute filterOf call with
      ⟨filter, next, outcome, after, valid, others⟩ | ⟨error, outcome, _⟩
    · rw [outcome]
      have later := ih after (compatible_cons.mpr ⟨valid, others, compatible⟩)
      simpa using later
    · rw [outcome]
      exact ih holds compatible

theorem admitAll_all {registry : RouteRegistry Method} {admitted : List (Call Method)}
    (holds : registry.Holds admitted) {calls : List (Call Method)}
    (compatible : Compatible filterOf (calls.reverse ++ admitted)) :
    (admitAll filterOf calls registry).2 = calls := by
  induction calls generalizing registry admitted with
  | nil => rfl
  | cons call rest ih =>
    rw [List.reverse_cons, List.append_assoc, List.singleton_append] at compatible
    have front : Compatible filterOf (call :: admitted) :=
      ⟨fun other mem => compatible.valid other (List.mem_append_right _ mem),
        compatible.pairwise.sublist (List.sublist_append_right _ _)⟩
    obtain ⟨valid, others, _⟩ := compatible_cons.mp front
    rw [admitAll]
    rcases holds.admitRoute filterOf call with
      ⟨filter, next, outcome, after, _⟩ | ⟨error, _, refused⟩
    · rw [outcome]
      exact congrArg (call :: ·) (ih after compatible)
    · exact absurd ⟨valid, others⟩ refused

theorem allAdmitted_iff (calls : List (Call Method)) :
    AllAdmitted filterOf calls ↔ Compatible filterOf calls := by
  have start : Compatible filterOf ([] : List (Call Method)) :=
    ⟨fun _ mem => absurd mem List.not_mem_nil, List.Pairwise.nil⟩
  rw [← compatible_perm calls.reverse_perm]
  constructor
  · intro all
    have compatible := admitAll_compatible RouteRegistry.Holds.new start calls
    rwa [show (admitAll filterOf calls {}).2 = calls from all, List.append_nil] at compatible
  · intro compatible
    refine admitAll_all RouteRegistry.Holds.new ?_
    rwa [List.append_nil]

/-- The admitted calls of a run do not conflict and are admitted once, a refused call changes nothing,
and the order of the calls does not decide whether all of them are admitted. -/
theorem registry_admits (filterOf : Method → Option Filter) (calls : List (Call Method)) :
    (∀ call ∈ (admitAll filterOf calls {}).2, ∀ other ∈ (admitAll filterOf calls {}).2,
        call.path ≠ other.path → ∃ parsed parsed', parse call.path = .ok parsed ∧
          parse other.path = .ok parsed' ∧ conflictsWith parsed parsed' = false) ∧
      (admitAll filterOf calls {}).2.Nodup ∧
      (∀ (registry : RouteRegistry Method) (path : List UInt8) (method : Method)
        (error : RouteError Method), (registry.admitRoute filterOf path method).1 = .error error →
          (registry.admitRoute filterOf path method).2 = registry) ∧
      ∀ calls', calls.Perm calls' → (AllAdmitted filterOf calls ↔ AllAdmitted filterOf calls') := by
  have start : Compatible filterOf ([] : List (Call Method)) :=
    ⟨fun _ mem => absurd mem List.not_mem_nil, List.Pairwise.nil⟩
  have compatible := admitAll_compatible RouteRegistry.Holds.new start calls
  rw [List.append_nil, compatible_perm (List.reverse_perm _)] at compatible
  refine ⟨?_, ?_, fun registry path method error => RouteRegistry.admit_refused, ?_⟩
  · intro call mem other mem' differ
    obtain ⟨parsed, read⟩ := (compatible.valid call mem).2
    obtain ⟨parsed', read'⟩ := (compatible.valid other mem').2
    have : Std.Symm (@Call.Compatible Method) := ⟨fun _ _ => Call.Compatible.symm⟩
    have pair := compatible.pairwise.forall mem mem' fun same => differ (congrArg Call.path same)
    exact ⟨parsed, parsed', read, read', pair.2 differ parsed parsed' read read'⟩
  · exact compatible.pairwise.imp And.left
  · intro calls' perm
    rw [allAdmitted_iff, allAdmitted_iff]
    exact compatible_perm perm

end Runs

end Halyard.Axum
