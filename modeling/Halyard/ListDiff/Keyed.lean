import Halyard.ListDiff.FromScratch

/-!
# A keyed list over its updates

`Keyed` of `view/keyed.rs`: the key set and the rows that one update leaves decide how the next one is
done.  Keys may repeat in any list, and then the key set has fewer keys than there are rows.

* `KeyedState.Shows`: what holds after the first render and after every update.
* `updates_show`: so it holds after any updates, and kept keys keep their rows between two lists of
  distinct keys.
-/

namespace Halyard.ListDiff

section Keyed

variable {Page Item Row : Type} [Target] {K : Type*} [DecidableEq K]

/-! ## Key sets of lists -/

/-- `insert`: the key is added last unless it is there. -/
def insertKey (keys : List K) (key : K) : List K :=
  if key ∈ keys then keys else keys ++ [key]

omit [Target] in
theorem nodup_insertKey {keys : List K} (nodup : keys.Nodup) (key : K) : (insertKey keys key).Nodup := by
  unfold insertKey
  split
  · exact nodup
  next absent =>
      refine List.nodup_append.2 ⟨nodup, List.nodup_singleton key, fun a member b single same => ?_⟩
      exact absent (List.mem_singleton.1 single ▸ same ▸ member)

omit [Target] in
theorem length_insertKey (keys : List K) (key : K) : (insertKey keys key).length ≤ keys.length + 1 := by
  unfold insertKey
  split <;> simp

omit [Target] in
theorem foldl_insertKey_nodup (keys : List K) (start : List K) (nodup : start.Nodup) :
    (keys.foldl insertKey start).Nodup := by
  induction keys generalizing start with
  | nil => exact nodup
  | cons key rest ih => exact ih _ (nodup_insertKey nodup key)

omit [Target] in
theorem length_foldl_insertKey (keys : List K) (start : List K) :
    (keys.foldl insertKey start).length ≤ start.length + keys.length := by
  induction keys generalizing start with
  | nil => simp
  | cons key rest ih =>
      have step := length_insertKey start key
      have all := ih (insertKey start key)
      rw [List.foldl_cons, List.length_cons]
      omega

omit [Target] in
/-- Keys that are distinct are all kept, in their order. -/
theorem foldl_insertKey_of_nodup (keys : List K) (start : List K) (nodup : (start ++ keys).Nodup) :
    keys.foldl insertKey start = start ++ keys := by
  induction keys generalizing start with
  | nil => simp
  | cons key rest ih =>
      have absent : key ∉ start := fun member =>
        (List.nodup_append.1 nodup).2.2 key member key List.mem_cons_self rfl
      have nodup' : (start ++ [key] ++ rest).Nodup := by simpa using nodup
      rw [List.foldl_cons, insertKey, if_neg absent, ih _ nodup']
      simp

omit [Target] in
theorem length_foldl_insertKey_lt (keys : List K) (start : List K) (nodup : start.Nodup)
    (repeats : ¬ (start ++ keys).Nodup) :
    (keys.foldl insertKey start).length < start.length + keys.length := by
  induction keys generalizing start with
  | nil => simp [nodup] at repeats
  | cons key rest ih =>
      rw [List.foldl_cons, List.length_cons]
      by_cases there : key ∈ start
      · rw [insertKey, if_pos there]
        have bound := length_foldl_insertKey rest start
        omega
      · rw [insertKey, if_neg there]
        have nodup' : (start ++ [key]).Nodup := by
          simpa [insertKey, there] using nodup_insertKey nodup key
        have shorter := ih (start ++ [key]) nodup' (by simpa using repeats)
        rw [List.length_append, List.length_singleton] at shorter
        omega

/-- The items of a list, which are in a `Vec`. -/
abbrev Items (Item : Type) := { items : List Item // items.length ≤ isizeMax }

/-- The keys of a list's items, each once. -/
def keySet (key : Item → K) (items : Items Item) : FxIndexSet K where
  entries := (items.1.map key).foldl insertKey []
  nodup := foldl_insertKey_nodup _ _ List.nodup_nil
  length_le := by
    have short := length_foldl_insertKey (items.1.map key) ([] : List K)
    rw [List.length_map, List.length_nil, Nat.zero_add] at short
    exact short.trans items.2

/-- The set has as many keys as the list has items just if its keys are distinct. -/
theorem len_keySet (key : Item → K) (items : Items Item) :
    (keySet key items).len = items.1.length ↔ (items.1.map key).Nodup := by
  constructor
  · intro same
    by_contra repeats
    have shorter := length_foldl_insertKey_lt (items.1.map key) [] List.nodup_nil (by simpa using repeats)
    rw [List.length_map, List.length_nil, Nat.zero_add] at shorter
    exact absurd same shorter.ne
  · intro distinct
    have all := foldl_insertKey_of_nodup (items.1.map key) [] (by simpa using distinct)
    simp [FxIndexSet.len, keySet, all]

theorem entries_keySet {key : Item → K} {items : Items Item} (distinct : (items.1.map key).Nodup) :
    (keySet key items).entries = items.1.map key := by
  simpa [keySet] using foldl_insertKey_of_nodup (items.1.map key) [] (by simpa using distinct)

/-! ## The list's state -/

/-- `KeyedState`, with the page that its rows are on. -/
structure KeyedState [Target] (K Page Row : Type*) where
  hashedItems : FxIndexSet K
  renderedItems : List (Option Row)
  page : Page

/-- The loop of `Keyed::build`, from `index` on. -/
def buildRows (ops : ListOps Page Item Row) : ℕ → List Item → Page → List Row × Page
  | _, [], page => ([], page)
  | index, item :: rest, page =>
      let built := ops.build page index item
      let others := buildRows ops (index + 1) rest built.2
      (built.1 :: others.1, others.2)

/-- `Keyed::build`, and `mount`: the rows are built, and then mounted one after another. -/
def KeyedState.build (ops : ListOps Page Item Row) (key : Item → K) (items : Items Item) (page : Page) :
    KeyedState K Page Row :=
  let built := buildRows ops 0 items.1 page
  { hashedItems := keySet key items
    renderedItems := built.1.map some
    page := built.1.foldl (fun page row => ops.mount page row none) built.2 }

/-- `Keyed::rebuild`. -/
def KeyedState.rebuild (ops : ListOps Page Item Row) (key : Item → K) (state : KeyedState K Page Row)
    (items : Items Item) : KeyedState K Page Row :=
  let newHashedItems := keySet key items
  let reconciled := reconcile ops state.hashedItems newHashedItems state.renderedItems
    (items.1.map some) state.page
  { hashedItems := newHashedItems, renderedItems := reconciled.rows, page := reconciled.page }

/-- The updates are done in turn. -/
def KeyedState.updates (ops : ListOps Page Item Row) (key : Item → K) (state : KeyedState K Page Row)
    (lists : List (Items Item)) : KeyedState K Page Row :=
  lists.foldl (fun state items => state.rebuild ops key items) state

/-! ## What the page shows -/

variable [DecidableEq Row] {ops : ListOps Page Item Row} (view : PageView ops) (key : Item → K)

/-- The row was built for an item of one of the lists so far, which has this key. -/
def BuiltFor (ops : ListOps Page Item Row) (seen : List (Items Item)) (k : K) (row : Row) : Prop :=
  ∃ items ∈ seen, ∃ page index, ∃ item ∈ items.1, key item = k ∧ (ops.build page index item).1 = row

/-- The page and the state hold one row for each item of the last list, in order, and the page shows no
other row. -/
structure KeyedState.Shows (seen : List (Items Item)) (items : Items Item) (state : KeyedState K Page Row)
    (rows : List Row) : Prop where
  hashed : state.hashedItems = keySet key items
  rows_eq : state.renderedItems = rows.map some
  shown_eq : view.shown state.page = rows
  nodup : rows.Nodup
  length_eq : rows.length = items.1.length
  known : ∀ row ∈ rows, row ∈ view.built state.page
  made : ∀ (i : ℕ) item row, items.1[i]? = some item → rows[i]? = some row →
    BuiltFor key ops seen (key item) row

omit [Target] [DecidableEq K] [DecidableEq Row] in
theorem BuiltFor.more [Target] {seen : List (Items Item)} {k : K} {row : Row}
    (made : BuiltFor key ops seen k row) (items : Items Item) :
    BuiltFor key ops (seen ++ [items]) k row := by
  rcases made with ⟨list, member, built⟩
  exact ⟨list, List.mem_append_left _ member, built⟩

omit [DecidableEq K] in
theorem BuiltAt.builtFor {seen : List (Items Item)} {items : Items Item} (shownBefore : items ∈ seen)
    {page : Page} {index : ℕ} {row : Row} {item : Item}
    (builtAt : BuiltAt view page (items.1.map some) index row) (here : items.1[index]? = some item) :
    BuiltFor key ops seen (key item) row := by
  rcases builtAt with ⟨page', item', -, found, made⟩
  rw [List.getElem?_map, here, Option.map_some, Option.some.injEq, Option.some.injEq] at found
  exact ⟨items, shownBefore, page', index, item', found ▸ List.mem_of_getElem? here,
    congrArg key found.symm, made⟩

/-! ## The first render -/

omit [Target] in
/-- The rows are built one after another, each new, while the page shows what it did. -/
theorem buildRows_spec (items : List Item) (index : ℕ) (page : Page) :
    (buildRows ops index items page).1.length = items.length ∧
      view.shown (buildRows ops index items page).2 = view.shown page ∧
      view.built page ⊆ view.built (buildRows ops index items page).2 ∧
      (∀ row ∈ (buildRows ops index items page).1,
        row ∉ view.built page ∧ row ∈ view.built (buildRows ops index items page).2) ∧
      (buildRows ops index items page).1.Nodup ∧
      ∀ (i : ℕ) item row, items[i]? = some item → (buildRows ops index items page).1[i]? = some row →
        ∃ page' index', (ops.build page' index' item).1 = row := by
  induction items generalizing index page with
  | nil => exact ⟨rfl, rfl, subset_rfl, by simp [buildRows], List.nodup_nil, by simp⟩
  | cons item rest ih =>
      rcases ih (index + 1) (ops.build page index item).2 with
        ⟨length, shown, grown, others, nodup, made⟩
      rw [view.built_build] at grown others
      have fresh := view.fresh page index item
      refine ⟨by simpa [buildRows] using length, by simpa [buildRows] using shown,
        (Set.subset_insert _ _).trans grown, ?_, ?_, ?_⟩
      · intro row member
        rcases List.mem_cons.1 member with rfl | member
        · exact ⟨fresh, grown (Set.mem_insert _ _)⟩
        · exact ⟨fun old => (others row member).1 (Or.inr old), (others row member).2⟩
      · refine List.nodup_cons.2 ⟨fun member => ?_, nodup⟩
        exact (others _ member).1 (Set.mem_insert _ _)
      · intro i other row here there
        cases i with
        | zero =>
            rw [List.getElem?_cons_zero, Option.some.injEq] at here
            rw [buildRows, List.getElem?_cons_zero, Option.some.injEq] at there
            exact ⟨page, index, here ▸ there⟩
        | succ i =>
            rw [List.getElem?_cons_succ] at here
            rw [buildRows, List.getElem?_cons_succ] at there
            exact made i other row here there

omit [Target] in
/-- Rows that are not on the page are mounted after those that are. -/
theorem mountAll_shows (rows : List Row) (page : Page) (nodup : (view.shown page ++ rows).Nodup) :
    view.shown (rows.foldl (fun page row => ops.mount page row none) page) = view.shown page ++ rows ∧
      view.built (rows.foldl (fun page row => ops.mount page row none) page) = view.built page := by
  induction rows generalizing page with
  | nil => exact ⟨(List.append_nil _).symm, rfl⟩
  | cons row rest ih =>
      have absent : row ∉ view.shown page := fun member =>
        (List.nodup_append.1 nodup).2.2 row member row List.mem_cons_self rfl
      have mounted : view.shown (ops.mount page row none) = view.shown page ++ [row] := by
        rw [view.shown_mount_last, Placement.move, List.erase_of_not_mem absent]
      rcases ih (ops.mount page row none) (by rw [mounted]; simpa using nodup) with ⟨shown, built⟩
      rw [List.foldl_cons, shown, built, mounted, view.built_mount]
      simp

theorem build_shows (initial : Items Item) (page : Page) (empty : view.shown page = []) :
    ∃ rows, KeyedState.Shows view key [initial] initial (KeyedState.build ops key initial page) rows := by
  rcases buildRows_spec view initial.1 0 page with ⟨length, shown, -, others, nodup, made⟩
  rcases mountAll_shows view (buildRows ops 0 initial.1 page).1 (buildRows ops 0 initial.1 page).2
    (by rw [shown, empty]; exact nodup) with ⟨shown', built⟩
  refine ⟨(buildRows ops 0 initial.1 page).1, rfl, rfl, ?_, nodup, length, ?_, ?_⟩
  · rw [KeyedState.build, shown', shown, empty, List.nil_append]
  · intro row member
    rw [KeyedState.build, built]
    exact (others row member).2
  · intro i item row here there
    rcases made i item row here there with ⟨page', index, built⟩
    exact ⟨initial, List.mem_singleton_self initial, page', index, item, List.mem_of_getElem? here, rfl,
      built⟩

/-! ## An update -/

/-- The rows of the keys that two lists share are the same. -/
def Reused (items items' : List Item) (rows rows' : List Row) : Prop :=
  ∀ (i j : ℕ) item item', items[i]? = some item → items'[j]? = some item' → key item = key item' →
    rows'[j]? = rows[i]?

variable {view key}
variable {seen : List (Items Item)} {items : Items Item} {state : KeyedState K Page Row} {rows : List Row}

/-- Between lists of distinct keys the update carries out a plan. -/
theorem KeyedState.Shows.reconcile (shows : KeyedState.Shows view key seen items state rows)
    (next : Items Item) (distinct : (items.1.map key).Nodup) (distinct' : (next.1.map key).Nodup) :
    ∃ rows', KeyedState.Shows view key (seen ++ [next]) next (state.rebuild ops key next) rows' ∧
      Reused key items.1 next.1 rows rows' := by
  have length : rows.length = (keySet key items).len :=
    shows.length_eq.trans ((len_keySet key items).2 distinct).symm
  rcases reconcile_updated view (keySet key items) (keySet key next) rows next.1 state.page length
    ((len_keySet key next).2 distinct').symm shows.nodup shows.shown_eq shows.known with
    ⟨rows', updated, known⟩
  rw [← shows.hashed, ← shows.rows_eq] at updated known
  have at_ : ∀ {list : Items Item} {i : ℕ} {item : Item}, (list.1.map key).Nodup →
      list.1[i]? = some item → (keySet key list).getIndex i = some (key item) := by
    intro list i item nodup here
    rw [FxIndexSet.getIndex, entries_keySet nodup, List.getElem?_map, here, Option.map_some]
  have reused : Reused key items.1 next.1 rows rows' := by
    intro i j item item' here there same
    refine updated.kept i j (key item) ?_ (same ▸ at_ distinct' there)
    rw [shows.hashed]
    exact at_ distinct here
  refine ⟨rows', ⟨rfl, updated.rows_eq, updated.shown_eq, updated.nodup,
    updated.length_eq.trans ((len_keySet key next).2 distinct'), known, ?_⟩, reused⟩
  intro j item row there found
  by_cases kept : key item ∈ items.1.map key
  · rcases List.mem_map.1 kept with ⟨old, member, same⟩
    rcases List.mem_iff_getElem?.1 member with ⟨i, here⟩
    rw [reused i j old item here there same] at found
    exact same ▸ (shows.made i old row here found).more key next
  · have notOld : key item ∉ state.hashedItems.entries := by
      rwa [shows.hashed, entries_keySet distinct]
    rcases updated.added j (key item) (at_ distinct' there) notOld with ⟨row', found', -, builtAt⟩
    cases Option.some.inj (found.symm.trans found')
    exact builtAt.builtFor view key (List.mem_append_right _ (List.mem_singleton_self next)) there

/-- Otherwise the list is rendered again from scratch. -/
theorem KeyedState.Shows.rebuildFromScratch (shows : KeyedState.Shows view key seen items state rows)
    (next : Items Item) (repeats : ¬ ((items.1.map key).Nodup ∧ (next.1.map key).Nodup)) :
    ∃ rows', KeyedState.Shows view key (seen ++ [next]) next (state.rebuild ops key next) rows' := by
  have lengths : (next.1.map some).length ≠ (keySet key next).len ∨
      state.renderedItems.length ≠ state.hashedItems.len := by
    rw [List.length_map, shows.rows_eq, List.length_map, shows.length_eq, shows.hashed]
    by_contra same
    rw [not_or, not_not, not_not] at same
    exact repeats ⟨(len_keySet key items).1 same.2.symm, (len_keySet key next).1 same.1.symm⟩
  have held : ∀ row ∈ view.shown state.page, row ∈ state.renderedItems.reduceOption := by
    rw [shows.shown_eq, shows.rows_eq]
    simp [List.reduceOption, List.filterMap_map]
  rcases rebuildFromScratch_shows view state.renderedItems next.1 state.page
    (if (next.1.map some).length ≠ (keySet key next).len then
      .repeatedKeys (next.1.map some).length (keySet key next).len
    else .repeatedKeys state.renderedItems.length state.hashedItems.len)
    (shows.shown_eq ▸ shows.nodup) held with ⟨rows', rendered⟩
  refine ⟨rows', rfl, ?_, ?_, rendered.nodup, rendered.length_eq, ?_, ?_⟩
  · rw [KeyedState.rebuild, ListDiff.reconcile, if_pos lengths]
    exact rendered.rows_eq
  · rw [KeyedState.rebuild, ListDiff.reconcile, if_pos lengths]
    exact rendered.shown_eq
  · rw [KeyedState.rebuild, ListDiff.reconcile, if_pos lengths]
    exact rendered.known
  · intro j item row there found
    exact (rendered.made j row found).builtFor view key
      (List.mem_append_right _ (List.mem_singleton_self next)) there

/-- One update, from whatever state the updates before it left. -/
theorem KeyedState.Shows.rebuild (shows : KeyedState.Shows view key seen items state rows)
    (next : Items Item) :
    ∃ rows', KeyedState.Shows view key (seen ++ [next]) next (state.rebuild ops key next) rows' ∧
      ((items.1.map key).Nodup → (next.1.map key).Nodup → Reused key items.1 next.1 rows rows') := by
  by_cases distinct : (items.1.map key).Nodup ∧ (next.1.map key).Nodup
  · rcases shows.reconcile next distinct.1 distinct.2 with ⟨rows', shows', reused⟩
    exact ⟨rows', shows', fun _ _ => reused⟩
  · rcases shows.rebuildFromScratch next distinct with ⟨rows', shows'⟩
    exact ⟨rows', shows', fun old new => absurd ⟨old, new⟩ distinct⟩

variable (view key)

omit [DecidableEq Row] in
theorem updates_append (state : KeyedState K Page Row) (lists : List (Items Item)) (next : Items Item) :
    state.updates ops key (lists ++ [next]) = (state.updates ops key lists).rebuild ops key next := by
  simp [KeyedState.updates]

theorem updates_shows (initial : Items Item) (page : Page) (empty : view.shown page = [])
    (lists : List (Items Item)) :
    ∃ rows, KeyedState.Shows view key (initial :: lists) (lists.getLastD initial)
      ((KeyedState.build ops key initial page).updates ops key lists) rows := by
  induction lists using List.reverseRecOn with
  | nil => exact build_shows view key initial page empty
  | append_singleton lists next ih =>
      rcases ih with ⟨rows, shows⟩
      rcases shows.rebuild next with ⟨rows', shows', -⟩
      refine ⟨rows', ?_⟩
      rw [updates_append, List.getLastD_concat]
      exact shows'

end Keyed

section Browser

/-- A browser's pointer width. -/
local instance keyedTarget : Target := ⟨32⟩

end Browser

end Halyard.ListDiff
