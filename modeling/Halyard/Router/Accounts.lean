import Halyard.Router.Parts

/-!
# The parts of a path that nested routes match

`Accounts` is what a match should say of a path: the parts of its routes and what remains make up the
path, and each route's params are those its segments take from its own part, followed by its child's.
A parent with optional segments can give back to its children what it had matched, and still reports it
as its own part.

* `accounts_of_straight`, `straight_of_partition`: no part is given back just if the parts make up the path.
* `matchNested_accounts`, `matchRoute_parts`: what a match says of its path.
* `given_back_part`: a parent that reports its child's part.
-/

namespace Halyard.Router

/-- A route has matched `taken`, and reports the slash it hands on with it. -/
structure Part (matched path below taken handed : Path) : Prop where
  path : path = taken ++ below
  matched : matched = taken ++ handed
  hands : Hands handed below

/-- The reported parts and the rest make up the path. -/
def Partition : Match → Path → Path → Prop
  | .unit, path, rest => path = rest
  | .leaf _ matched _, path, rest => ∃ taken handed, Part matched path rest taken handed
  | .parent _ matched _ child, path, rest =>
      ∃ below taken handed, Part matched path below taken handed ∧ Partition child below rest

inductive Accounts : RouteTree → Match → Path → Path → Prop
  | unit {path : Path} : Accounts .unit .unit path path
  | leaf {id : ℕ} {segments : Segments} {matched path rest taken handed : Path} {own : Params} :
      Part matched path rest taken handed → Takes segments matched handed own →
      Accounts (.leaf id segments) (.leaf id matched own) path rest
  | parent {id : ℕ} {segments : Segments} {children : RouteTree} {child : Match}
      {matched path below rest taken handed : Path} {own : Params} :
      Part matched path below taken handed → Takes segments matched handed own →
      Accounts children child below rest →
      Accounts (.parent id segments children) (.parent id matched (own ++ child.toParams) child) path rest
  | tuple {routes : List RouteTree} {route : RouteTree} {found : Match} {path rest : Path} :
      route ∈ routes → Accounts route found path rest → Accounts (.tuple routes) found path rest

theorem Accounts.partition {tree : RouteTree} {found : Match} {path rest : Path}
    (accounts : Accounts tree found path rest) : Partition found path rest := by
  induction accounts with
  | unit => rfl
  | leaf part _ => exact ⟨_, _, part⟩
  | parent part _ _ ih => exact ⟨_, _, _, part, ih⟩
  | tuple _ _ ih => exact ih

mutual

/-- No parent on the way to the match gives its path back to its children, unless all it had matched is
the path `/`. -/
def RouteTree.straight : RouteTree → Path → Bool
  | .unit, _ => true
  | .leaf _ _, _ => true
  | .parent _ segments children, path =>
      match segments.test path with
      | none => true
      | some partialMatch =>
          match children.matchNested partialMatch.remaining with
          | (some _, _) => children.straight partialMatch.remaining
          | (none, _) => path == ['/'] && children.straight path
  | .tuple routes, path => RouteTree.firstStraight routes path

def RouteTree.firstStraight : List RouteTree → Path → Bool
  | [], _ => true
  | route :: routes, path =>
      match route.matchNested path with
      | (some _, _) => route.straight path
      | (none, _) => RouteTree.firstStraight routes path

end

/-! ## What a match is made of -/

theorem matched_leaf {id : ℕ} {segments : Segments} {path rest : Path} {found : Match}
    (matched : (RouteTree.leaf id segments).matchNested path = (some found, rest)) :
    ∃ partialMatch, segments.test path = some partialMatch ∧ partialMatch.remaining = rest ∧
      found = .leaf id partialMatch.matched partialMatch.params := by
  simp only [RouteTree.matchNested] at matched
  split at matched
  next partialMatch tested =>
    split at matched
    next =>
      cases matched
      exact ⟨partialMatch, tested, rfl, rfl⟩
    next => cases matched
  next => cases matched

/-- The children match what the parent leaves, or the whole path. -/
theorem matched_parent {id : ℕ} {segments : Segments} {children : RouteTree} {path rest : Path}
    {found : Match}
    (matched : (RouteTree.parent id segments children).matchNested path = (some found, rest)) :
    ∃ partialMatch child params, segments.test path = some partialMatch ∧
      found = .parent id partialMatch.matched params child ∧
      (children.matchNested partialMatch.remaining = (some child, rest) ∧
          params = partialMatch.params ++ child.toParams ∨
        (children.matchNested partialMatch.remaining).1 = none ∧
          children.matchNested path = (some child, rest) ∧
          ∃ newPartial, segments.test (trimEndMatches (child.asMatched ++ rest) path) = some newPartial ∧
            params = newPartial.params ++ child.toParams) := by
  simp only [RouteTree.matchNested] at matched
  split at matched
  next partialMatch tested =>
    split at matched
    next child remaining params within =>
      cases matched
      refine ⟨partialMatch, child, params, tested, rfl, ?_⟩
      unfold inner at within
      split at within
      next child' remaining' found =>
        split at within
        next =>
          cases within
          exact .inl ⟨found, rfl⟩
        next => cases within
      next remaining' found =>
        split at within
        next =>
          split at within
          next child' remaining'' again =>
            split at within
            next =>
              obtain ⟨newPartial, rematched, within⟩ := Option.bind_eq_some_iff.mp within
              cases within
              exact .inr ⟨by rw [found], again, newPartial, rematched, rfl⟩
            next => cases within
          next => cases within
        next => cases within
    next => cases matched
  next => cases matched

/-! ## A match covers its path -/

/-- The longer of two parts ends with the slash that the other hands on. -/
theorem Part.longer {matched path below other rest taken handed taken' handed' : Path}
    (part : Part matched path below taken handed) (part' : Part matched other rest taken' handed')
    (longer : taken'.length < taken.length) : taken = taken' ++ ['/'] ∧ handed' = ['/'] := by
  have same : taken ++ handed = taken' ++ handed' := by rw [← part.matched, ← part'.matched]
  have lengths := congrArg List.length same
  rw [List.length_append, List.length_append] at lengths
  rcases part'.hands with rfl | ⟨rfl, -⟩
  · rw [List.length_nil] at lengths
    omega
  · rw [List.length_singleton] at lengths
    have none_ : handed = [] := List.length_eq_zero_iff.mp (by omega)
    rw [none_, List.append_nil] at same
    exact ⟨same, rfl⟩

theorem Part.length_le {matched path below other rest taken handed taken' handed' : Path}
    (part : Part matched path below taken handed) (part' : Part matched other rest taken' handed')
    (ends : taken.getLast? = some '/' → below = []) (le : below.length ≤ rest.length) :
    path.length ≤ other.length := by
  rw [part.path, part'.path, List.length_append, List.length_append]
  rcases Nat.lt_or_ge taken'.length taken.length with longer | shorter
  · obtain ⟨same, rfl⟩ := part.longer part' longer
    have empty := ends (by rw [same, List.getLast?_append]; rfl)
    have := part'.hands.starts.length_le
    rw [empty, same, List.length_append, List.length_nil]
    simp only [List.length_singleton] at this ⊢
    omega
  · omega

theorem Sound.part {segments : Segments} {path taken handed : Path} {partialMatch : PartialPathMatch}
    (sound : Sound segments path taken handed partialMatch) :
    Part partialMatch.matched path partialMatch.remaining taken handed :=
  ⟨sound.path, sound.matched, sound.hands⟩

mutual

/-- The parts of a match cannot make up less than the path that was matched. -/
theorem partition_length (tree : RouteTree) {path other rest : Path} {found : Match}
    (matched : tree.matchNested path = (some found, rest)) (parts : Partition found other rest) :
    path.length ≤ other.length := by
  cases tree with
  | unit =>
    cases matched
    exact (congrArg List.length parts).ge
  | leaf id segments =>
    obtain ⟨partialMatch, tested, rfl, rfl⟩ := matched_leaf matched
    obtain ⟨taken, handed, sound⟩ := test_sound segments tested
    obtain ⟨taken', handed', part⟩ := parts
    exact sound.part.length_le part sound.ends le_rfl
  | parent id segments children =>
    obtain ⟨partialMatch, child, params, tested, rfl, within⟩ := matched_parent matched
    obtain ⟨below, taken', handed', part, childParts⟩ := parts
    rcases within with ⟨found, -⟩ | ⟨-, found, -⟩
    · obtain ⟨taken, handed, sound⟩ := test_sound segments tested
      exact sound.part.length_le part sound.ends (partition_length children found childParts)
    · have covered := partition_length children found childParts
      rw [part.path, List.length_append]
      omega
  | tuple routes => exact firstPartition_length routes matched parts

theorem firstPartition_length (routes : List RouteTree) {path other rest : Path} {found : Match}
    (matched : RouteTree.matchFirst routes path = (some found, rest))
    (parts : Partition found other rest) : path.length ≤ other.length := by
  cases routes with
  | nil => cases matched
  | cons route routes =>
    simp only [RouteTree.matchFirst] at matched
    split at matched
    next found' remaining first =>
      cases matched
      exact partition_length route first parts
    next => exact firstPartition_length routes matched parts

end

/-! ## The path that is given back -/

theorem trimEndMatches_le (pattern path : Path) : trimEndMatches pattern path <+: path := by
  have go_le (fuel : ℕ) (path : Path) : trimEndMatches.go pattern fuel path <+: path := by
    induction fuel generalizing path with
    | zero => exact List.prefix_refl path
    | succ fuel ih =>
      simp only [trimEndMatches.go]
      split
      next => exact (ih _).trans (List.take_prefix _ _)
      next => exact List.prefix_refl path
  exact go_le path.length path

/-- A parent that gives back anything at all has taken it: it is the path `/`, or more. -/
theorem taken_of_none {segments : Segments} {children : RouteTree} {path taken handed : Path}
    {partialMatch : PartialPathMatch} {child : Match} {rest : Path}
    (sound : Sound segments path taken handed partialMatch)
    (none_ : (children.matchNested partialMatch.remaining).1 = none)
    (again : children.matchNested path = (some child, rest)) : taken ≠ [] := by
  rintro rfl
  rw [← show path = partialMatch.remaining from sound.path, again] at none_
  cases none_

mutual

theorem takes_slash {segments : Segments} {path rest : Path} {params : Params}
    (takes : Takes segments path rest params) (pre : path <+: ['/']) :
    rest <+: ['/'] ∧ Takes segments ['/'] ['/'] params := by
  have long {name : List Char} (some_ : name ≠ []) : ¬ '/' :: (name ++ rest) <+: ['/'] := by
    intro pre
    have := pre.length_le
    have := List.length_pos_iff.mpr some_
    simp only [List.length_cons, List.length_append, List.length_nil] at *
    omega
  cases takes with
  | empty _ => exact ⟨pre, .empty rfl⟩
  | slash => exact ⟨pre, .slash⟩
  | static some_ name _ _ => exact absurd pre (long (staticName_ne_nil some_ name))
  | param some_ _ _ => exact absurd pre (long some_)
  | optional some_ _ _ => exact absurd pre (long some_)
  | absent _ => exact ⟨pre, .absent id⟩
  | @wildcard name value rest =>
    have empty : value = [] := by
      by_contra some_
      exact long some_ pre
    subst empty
    have end_ : rest = [] := List.prefix_nil.mp (List.cons_prefix_cons.mp pre).2
    exact ⟨end_ ▸ List.nil_prefix, .nothing⟩
  | nothing => exact ⟨pre, .nothing⟩
  | tuple kept fields =>
    obtain ⟨pre', fields'⟩ := takesFields_slash fields pre
    exact ⟨pre', .tuple kept fields'⟩

theorem takesFields_slash {kept : ℕ} {fields : List Segments} {path rest : Path} {params : Params}
    (takes : TakesFields kept fields path rest params) (pre : path <+: ['/']) :
    rest <+: ['/'] ∧ TakesFields kept fields ['/'] ['/'] params := by
  cases takes with
  | nil => exact ⟨pre, .nil⟩
  | always optional field rest =>
    obtain ⟨pre', field'⟩ := takes_slash field pre
    obtain ⟨pre'', rest'⟩ := takesFields_slash rest pre'
    exact ⟨pre'', .always optional field' rest'⟩
  | kept optional field rest =>
    obtain ⟨pre', field'⟩ := takes_slash field pre
    obtain ⟨pre'', rest'⟩ := takesFields_slash rest pre'
    exact ⟨pre'', .kept optional field' rest'⟩
  | dropped optional rest =>
    obtain ⟨pre', rest'⟩ := takesFields_slash rest pre
    exact ⟨pre', .dropped optional rest'⟩

end

theorem takes_given_back {segments : Segments} {pattern : Path} {partialMatch : PartialPathMatch}
    (tested : segments.test (trimEndMatches pattern ['/']) = some partialMatch) :
    Takes segments ['/'] ['/'] partialMatch.params := by
  obtain ⟨taken, handed, sound⟩ := test_sound segments tested
  have takes := sound.takes _ (List.prefix_refl _) sound.hands.starts.length_le
  rw [← sound.path] at takes
  exact (takes_slash takes (trimEndMatches_le pattern ['/'])).2

/-- A parent that gives the path `/` back has reported the slash. -/
theorem slash_given_back {segments : Segments} {taken handed : Path} {partialMatch : PartialPathMatch}
    (sound : Sound segments ['/'] taken handed partialMatch) (some_ : taken ≠ []) :
    Part partialMatch.matched ['/'] ['/'] [] ['/'] := by
  have whole : taken = ['/'] := by
    have pre : taken <+: ['/'] := ⟨_, sound.path.symm⟩
    cases taken with
    | nil => exact absurd rfl some_
    | cons c taken =>
      obtain ⟨rfl, pre'⟩ := List.cons_prefix_cons.mp pre
      rw [List.prefix_nil.mp pre']
  have none_ : partialMatch.remaining = [] := sound.ends (by rw [whole]; rfl)
  have nothing : handed = [] := by
    have pre := sound.hands.starts
    rw [none_] at pre
    exact List.prefix_nil.mp pre
  exact ⟨rfl, by rw [sound.matched, whole, nothing]; rfl, .inr ⟨rfl, List.prefix_refl _⟩⟩

/-! ## Paths that are not given back -/

mutual

theorem accounts_of_straight (tree : RouteTree) {path rest : Path} {found : Match}
    (matched : tree.matchNested path = (some found, rest)) (straight : tree.straight path = true) :
    Accounts tree found path rest := by
  cases tree with
  | unit =>
    cases matched
    exact .unit
  | leaf id segments =>
    obtain ⟨partialMatch, tested, rfl, rfl⟩ := matched_leaf matched
    obtain ⟨taken, handed, sound⟩ := test_sound segments tested
    have takes := sound.takes handed sound.hands.starts le_rfl
    rw [← sound.matched] at takes
    exact .leaf sound.part takes
  | parent id segments children =>
    obtain ⟨partialMatch, child, params, tested, rfl, within⟩ := matched_parent matched
    obtain ⟨taken, handed, sound⟩ := test_sound segments tested
    simp only [RouteTree.straight, tested] at straight
    rcases within with ⟨found, rfl⟩ | ⟨none_, found, newPartial, rematched, rfl⟩
    · rw [found] at straight
      have takes := sound.takes handed sound.hands.starts le_rfl
      rw [← sound.matched] at takes
      exact .parent sound.part takes (accounts_of_straight children found straight)
    · split at straight
      next child' remaining again =>
        rw [again] at none_
        cases none_
      next =>
        obtain ⟨slash, straight⟩ := Bool.and_eq_true_iff.mp straight
        have some_ := taken_of_none sound none_ found
        have slash : path = ['/'] := by simpa using slash
        subst slash
        have part := slash_given_back sound some_
        refine .parent part ?_ (accounts_of_straight children found straight)
        rw [part.matched]
        exact takes_given_back rematched
  | tuple routes =>
    obtain ⟨route, member, accounts⟩ := firstAccounts_of_straight routes matched straight
    exact .tuple member accounts

theorem firstAccounts_of_straight (routes : List RouteTree) {path rest : Path} {found : Match}
    (matched : RouteTree.matchFirst routes path = (some found, rest))
    (straight : RouteTree.firstStraight routes path = true) :
    ∃ route ∈ routes, Accounts route found path rest := by
  cases routes with
  | nil => cases matched
  | cons route routes =>
    simp only [RouteTree.matchFirst, RouteTree.firstStraight] at matched straight
    rcases first : route.matchNested path with ⟨_ | found', remaining⟩
    · simp only [first] at matched straight
      obtain ⟨other, member, accounts⟩ := firstAccounts_of_straight routes matched straight
      exact ⟨other, List.mem_cons_of_mem route member, accounts⟩
    · simp only [first] at matched straight
      cases matched
      exact ⟨route, List.mem_cons_self, accounts_of_straight route first straight⟩

end

mutual

/-- There is nothing to give back of an empty path. -/
theorem straight_nil (tree : RouteTree) {rest : Path} {found : Match}
    (matched : tree.matchNested [] = (some found, rest)) : tree.straight [] = true := by
  cases tree with
  | unit => rfl
  | leaf id segments => rfl
  | parent id segments children =>
    obtain ⟨partialMatch, child, params, tested, rfl, within⟩ := matched_parent matched
    obtain ⟨taken, handed, sound⟩ := test_sound segments tested
    obtain ⟨none_, empty⟩ : taken = [] ∧ partialMatch.remaining = [] :=
      List.append_eq_nil_iff.mp sound.path.symm
    rcases within with ⟨found, -⟩ | ⟨failed, found, -⟩
    · simp only [RouteTree.straight, tested, found]
      rw [empty] at found ⊢
      exact straight_nil children found
    · exact absurd none_ (taken_of_none sound failed found)
  | tuple routes => exact firstStraight_nil routes matched

theorem firstStraight_nil (routes : List RouteTree) {rest : Path} {found : Match}
    (matched : RouteTree.matchFirst routes [] = (some found, rest)) :
    RouteTree.firstStraight routes [] = true := by
  cases routes with
  | nil => cases matched
  | cons route routes =>
    simp only [RouteTree.matchFirst, RouteTree.firstStraight] at matched ⊢
    rcases first : route.matchNested [] with ⟨_ | found', remaining⟩
    · simp only [first] at matched ⊢
      exact firstStraight_nil routes matched
    · simp only
      exact straight_nil route first

end

mutual

theorem straight_of_partition (tree : RouteTree) {path rest : Path} {found : Match}
    (matched : tree.matchNested path = (some found, rest)) (parts : Partition found path rest) :
    tree.straight path = true := by
  cases tree with
  | unit => rfl
  | leaf id segments => rfl
  | parent id segments children =>
    obtain ⟨partialMatch, child, params, tested, rfl, within⟩ := matched_parent matched
    obtain ⟨below, taken', handed', part, childParts⟩ := parts
    obtain ⟨taken, handed, sound⟩ := test_sound segments tested
    simp only [RouteTree.straight, tested]
    rcases within with ⟨found, -⟩ | ⟨failed, found, -⟩
    · rw [found]
      dsimp only
      by_cases end_ : partialMatch.remaining = []
      · rw [end_] at found ⊢
        exact straight_nil children found
      · have covered := partition_length children found childParts
        have short : ¬taken'.length < taken.length := by
          intro longer
          obtain ⟨same, -⟩ := sound.part.longer part longer
          exact end_ (sound.ends (by rw [same, List.getLast?_append]; rfl))
        have halves := sound.path.symm.trans part.path
        have lengths := congrArg List.length halves
        rw [List.length_append, List.length_append] at lengths
        have same : below = partialMatch.remaining :=
          (List.append_inj halves (by omega)).2.symm
        exact straight_of_partition children found (same ▸ childParts)
    · have some_ := taken_of_none sound failed found
      have covered := partition_length children found childParts
      obtain ⟨none_, whole⟩ : taken' = [] ∧ below = path := by
        have lengths := congrArg List.length part.path
        rw [List.length_append] at lengths
        have empty : taken' = [] := List.length_eq_zero_iff.mp (by omega)
        exact ⟨empty, by rw [part.path, empty, List.nil_append]⟩
      have longer : taken'.length < taken.length := by
        rw [none_]
        exact List.length_pos_iff.mpr some_
      obtain ⟨one, -⟩ := sound.part.longer part longer
      have slash : path = ['/'] := by
        have end_ := sound.ends (by rw [one, List.getLast?_append]; rfl)
        rw [sound.path, end_, one, none_]
        rfl
      split
      next child' remaining again =>
        rw [again] at failed
        cases failed
      next =>
        have straight := straight_of_partition children found (whole ▸ childParts)
        rw [straight, slash]
        rfl
  | tuple routes => exact firstStraight_of_partition routes matched parts

theorem firstStraight_of_partition (routes : List RouteTree) {path rest : Path} {found : Match}
    (matched : RouteTree.matchFirst routes path = (some found, rest))
    (parts : Partition found path rest) : RouteTree.firstStraight routes path = true := by
  cases routes with
  | nil => cases matched
  | cons route routes =>
    simp only [RouteTree.matchFirst, RouteTree.firstStraight] at matched ⊢
    rcases first : route.matchNested path with ⟨_ | found', remaining⟩
    · simp only [first] at matched ⊢
      exact firstStraight_of_partition routes matched parts
    · simp only [first] at matched ⊢
      cases matched
      exact straight_of_partition route first parts

end

/-! ## What a match says of its path -/

/-- A match accounts for its path just if no parent gave back what it had matched. -/
theorem matchNested_accounts {tree : RouteTree} {path rest : Path} {found : Match}
    (matched : tree.matchNested path = (some found, rest)) :
    Accounts tree found path rest ↔ tree.straight path = true :=
  ⟨fun accounts => straight_of_partition tree matched accounts.partition,
    accounts_of_straight tree matched⟩

/-- A page below a language that may be left out. -/
def languageRoutes : RouteTree :=
  .parent 1 (.tuple [.optionalParamSegment "lang"])
    (.leaf 2 (.tuple [.staticSegment ['a', 'b', 'o', 'u', 't']]))

def aboutPath : Path := ['/', 'a', 'b', 'o', 'u', 't']

theorem matchNested_accounts_language :
    Accounts languageRoutes
      (.parent 1 ['/', 'e', 'n'] [("lang", ['e', 'n'])] (.leaf 2 aboutPath []))
      ('/' :: 'e' :: 'n' :: aboutPath) [] :=
  (@matchNested_accounts languageRoutes _ _ _ rfl).mpr rfl

/-- Without the language, both routes report the page as the part that they have matched. -/
theorem given_back_part :
    languageRoutes.matchNested aboutPath =
        (some (.parent 1 aboutPath [] (.leaf 2 aboutPath [])), []) ∧
      ¬Accounts languageRoutes (.parent 1 aboutPath [] (.leaf 2 aboutPath [])) aboutPath [] := by
  have matched : languageRoutes.matchNested aboutPath =
      (some (.parent 1 aboutPath [] (.leaf 2 aboutPath [])), []) := rfl
  refine ⟨matched, fun accounts => ?_⟩
  have straight := straight_of_partition languageRoutes matched accounts.partition
  exact Bool.false_ne_true straight

/-- The same of a router's routes, on the path within its base. -/
theorem matchRoute_parts {defs : RouteDefs} {path : Path} {found : Match}
    (matched : defs.matchRoute path = some found) :
    ∃ below rest, defs.below path = some below ∧ isComplete rest = true ∧
      (Accounts defs.children found below rest ↔ defs.children.straight below = true) := by
  obtain ⟨below, within, matched⟩ := Option.bind_eq_some_iff.mp matched
  split at matched
  next found' rest nested =>
    split at matched
    next complete =>
      cases matched
      exact ⟨below, rest, within, complete,
        fun accounts => straight_of_partition defs.children nested accounts.partition,
        accounts_of_straight defs.children nested⟩
    next => cases matched
  next => cases matched

end Halyard.Router
