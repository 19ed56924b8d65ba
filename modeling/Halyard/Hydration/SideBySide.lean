import Halyard.Hydration.IslandsRouting

/-!
# Pages side by side

Where the walkers meet nothing that moves nodes, and no island, they stay side by side.

* `diffLoop_undisturbed`: what such a walk makes of the nodes of the page.
* `diffPages_iff`: when that is the new page.
* `attribute_stays`: an attribute that the new page does not have is not removed.
-/

namespace Halyard.IslandsRouting

/-! ## Nodes and their data -/

/-- An entry with its data changed, if it is the node's. -/
def Entry.update (id : ℕ) (change : Kind → Kind) (entry : Entry) : Entry :=
  if entry.id = id then { entry with kind := change entry.kind } else entry

theorem length_updates (id : ℕ) (change : Kind → Kind) (nodes : List Node) :
    (updates id change nodes).length = nodes.length := by
  induction nodes with
  | nil => rfl
  | cons node nodes ih =>
    rw [updates, List.length_cons, List.length_cons, ih]

mutual

theorem flat_update (id : ℕ) (change : Kind → Kind) :
    ∀ node : Node, (node.update id change).flat = node.flat.map (Entry.update id change)
  | .mk i kind children => by
    rw [Node.update, Node.flat, Node.flat, List.map_cons, flats_updates id change children, length_updates]
    congr 1
    unfold Entry.update
    split
    next => rfl
    next => rfl

theorem flats_updates (id : ℕ) (change : Kind → Kind) :
    ∀ nodes : List Node, flats (updates id change nodes) = (flats nodes).map (Entry.update id change)
  | [] => rfl
  | node :: nodes => by
    rw [updates, flats, flats, List.map_append, flat_update id change node, flats_updates id change nodes]

end

mutual

theorem update_of_not_mem (id : ℕ) (change : Kind → Kind) :
    ∀ node : Node, id ∉ node.ids → node.update id change = node
  | .mk i kind children, missing => by
    have missing : id ∉ i :: (flats children).map Entry.id := missing
    rw [List.mem_cons, not_or] at missing
    rw [Node.update, if_neg (Ne.symm missing.1), updates_of_not_mem id change children missing.2]

theorem updates_of_not_mem (id : ℕ) (change : Kind → Kind) :
    ∀ nodes : List Node, id ∉ (flats nodes).map Entry.id → updates id change nodes = nodes
  | [], _ => rfl
  | node :: nodes, missing => by
    rw [flats, List.map_append, List.mem_append, not_or] at missing
    rw [updates, update_of_not_mem id change node missing.1, updates_of_not_mem id change nodes missing.2]

end

theorem ids_update (id : ℕ) (change : Kind → Kind) (node : Node) : (node.update id change).ids = node.ids := by
  rw [Node.ids, flat_update, List.map_map, Node.ids]
  refine List.map_congr_left fun entry _ => ?_
  unfold Function.comp Entry.update
  split
  next => rfl
  next => rfl

/-! ## Walkers -/

theorem after_append {before rest : List ℕ} {id : ℕ} (fresh : id ∉ before) :
    after id (before ++ id :: rest) = rest.head? := by
  induction before with
  | nil => exact if_pos rfl
  | cons i before ih =>
    rw [List.mem_cons, not_or] at fresh
    rw [List.cons_append, after, if_neg (Ne.symm fresh.1), ih fresh.2]

/-- Two documents, of which no two nodes are one. -/
structure Apart (old new : Node) : Prop where
  nodup : (old.ids ++ new.ids).Nodup

variable {old new : Node} {before before' rest rest' : List Entry} {entry entry' : Entry}

theorem nextNode_of_find {page : Page} {tree : Node} (nodup : tree.ids.Nodup)
    (split : tree.flat = before ++ entry :: rest)
    (found : page.trees.find? (fun tree => decide (entry.id ∈ tree.ids)) = some tree) :
    page.nextNode entry.id = (rest.map Entry.id).head? := by
  have ids : tree.ids = before.map Entry.id ++ entry.id :: rest.map Entry.id := by
    rw [Node.ids, split, List.map_append, List.map_cons]
  rw [Page.nextNode, found, Option.bind_some]
  rw [ids] at nodup ⊢
  exact after_append fun there => (List.nodup_append.mp nodup).2.2 _ there _ List.mem_cons_self rfl

theorem mem_ids {tree : Node} (split : tree.flat = before ++ entry :: rest) : entry.id ∈ tree.ids := by
  rw [Node.ids, split, List.map_append, List.map_cons]
  exact List.mem_append_right _ List.mem_cons_self

theorem nextNode_old (apart : Apart old new) (split : old.flat = before ++ entry :: rest) :
    Page.nextNode ⟨[old, new]⟩ entry.id = (rest.map Entry.id).head? :=
  nextNode_of_find (List.nodup_append.mp apart.nodup).1 split
    (List.find?_cons_of_pos (decide_eq_true (mem_ids split)))

theorem nextNode_new (apart : Apart old new) (split : new.flat = before ++ entry :: rest) :
    Page.nextNode ⟨[old, new]⟩ entry.id = (rest.map Entry.id).head? := by
  have mem := mem_ids split
  have parts := List.nodup_append.mp apart.nodup
  have other : entry.id ∉ old.ids := fun there => parts.2.2 _ there _ mem rfl
  exact nextNode_of_find parts.2.1 split
    ((List.find?_cons_of_neg (by simpa using other)).trans (List.find?_cons_of_pos (decide_eq_true mem)))

theorem find_of_nodup {entries : List Entry} (nodup : (entries.map Entry.id).Nodup) (mem : entry ∈ entries) :
    entries.find? (fun other => other.id = entry.id) = some entry := by
  induction entries with
  | nil => cases mem
  | cons first entries ih =>
    rw [List.map_cons, List.nodup_cons] at nodup
    rcases List.mem_cons.mp mem with rfl | mem
    · exact List.find?_cons_of_pos (decide_eq_true rfl)
    · have other : ¬first.id = entry.id := fun same =>
        nodup.1 (same ▸ List.mem_map_of_mem mem)
      rw [List.find?_cons_of_neg (by simpa using other)]
      exact ih nodup.2 mem

theorem kind_of_mem (apart : Apart old new) (mem : entry ∈ old.flat ∨ entry ∈ new.flat) :
    Page.kind ⟨[old, new]⟩ entry.id = some entry.kind := by
  have all : flats [old, new] = old.flat ++ new.flat := by
    rw [flats, flats, flats, List.append_nil]
  have nodup : ((old.flat ++ new.flat).map Entry.id).Nodup := by
    rw [List.map_append]
    exact apart.nodup
  rw [Page.kind, all, find_of_nodup nodup (List.mem_append.mpr mem)]
  rfl

/-! ## The walk -/

/-- What comparing two nodes makes of the old one's data, where nothing is moved. -/
def mergeKind : Kind → Kind → Kind
  | .text _, .text content => .text content
  | .element tagName attributes, .element _ new =>
      .element tagName (new.foldl (fun attributes name value => attributes.insert name value) attributes)
  | old, _ => old

/-- The comparison moves nothing, and does not skip an island. -/
def Quiet : Kind → Kind → Prop
  | .text _, .text _ => True
  | .element tagName _, .element newTag _ => tagName ≠ "HALYARD-ISLAND" ∧ tagName = newTag
  | .comment text, .comment newText => ¬startsWith text "bo-for" ∧
      (startsWith text "bo" → startsWith text "bo-item" ∨ newText = text)
  | .document, .document => True
  | .doctype _, .doctype _ => True
  | .fragment, .fragment => True
  | _, _ => False

theorem diffNodes_quiet (dom : Dom) {diffRange : Page → ℕ → ℕ → Option ℕ → Option ℕ → Except Stop Page}
    {turns oldNode newNode : ℕ} {page : Page} {oldKind newKind : Kind} (quiet : Quiet oldKind newKind) :
    ∃ page', diffNodes dom diffRange turns page oldNode newNode oldKind newKind =
        .ok (oldNode, newNode, page') ∧
      (page' = page ∧ mergeKind oldKind newKind = oldKind ∨
        ∃ change, page' = page.update oldNode change ∧ change oldKind = mergeKind oldKind newKind) := by
  match oldKind, newKind, quiet with
  | .text _, .text content, _ => exact ⟨_, rfl, .inr ⟨_, rfl, rfl⟩⟩
  | .element tagName attributes, .element newTag new, quiet =>
    obtain ⟨other, rfl⟩ := quiet
    refine ⟨page.update oldNode (Kind.setAttributes new), ?_, .inr ⟨_, rfl, rfl⟩⟩
    simp [diffNodes, Kind.nodeType, other]
  | .comment text, .comment newText, quiet =>
    obtain ⟨list, same⟩ := quiet
    refine ⟨page, ?_, .inl ⟨rfl, rfl⟩⟩
    simp only [diffNodes, Kind.nodeType, ne_eq, not_true_eq_false, if_false, if_neg list]
    split
    next => rfl
    next item => exact if_neg fun other => other.2 ((same other.1).resolve_left item)
  | .document, .document, _ => exact ⟨page, rfl, .inl ⟨rfl, rfl⟩⟩
  | .doctype _, .doctype _, _ => exact ⟨page, rfl, .inl ⟨rfl, rfl⟩⟩
  | .fragment, .fragment, _ => exact ⟨page, rfl, .inl ⟨rfl, rfl⟩⟩

/-- What a walk side by side makes of the old nodes. -/
def mergeAll : List Entry → List Entry → List Entry
  | [], _ => []
  | entries, [] => entries
  | entry :: entries, new :: news =>
      { entry with kind := mergeKind entry.kind new.kind } :: mergeAll entries news

theorem map_update_of_nodup {id : ℕ} {change : Kind → Kind}
    (nodup : ((before ++ entry :: rest).map Entry.id).Nodup) (same : entry.id = id) :
    (before ++ entry :: rest).map (Entry.update id change) =
      before ++ { entry with kind := change entry.kind } :: rest := by
  subst same
  have others : ∀ {entries : List Entry}, (∀ other ∈ entries, other.id ≠ entry.id) →
      entries.map (Entry.update entry.id change) = entries := fun fresh =>
    (List.map_congr_left fun other mem => if_neg (fresh other mem)).trans (List.map_id _)
  rw [List.map_append, List.map_cons] at nodup ⊢
  have parts := List.nodup_append.mp nodup
  rw [others fun other mem same => parts.2.2 _ (List.mem_map_of_mem mem) _ List.mem_cons_self same,
    others fun other mem same => (List.nodup_cons.mp parts.2.1).1 (same ▸ List.mem_map_of_mem mem)]
  congr 2
  exact if_pos rfl

theorem apart_update {id : ℕ} {change : Kind → Kind} (apart : Apart old new) :
    Apart (old.update id change) new :=
  ⟨by rw [ids_update]; exact apart.nodup⟩

theorem diffLoop_undisturbed (dom : Dom) {turns : ℕ} (apart : Apart old new)
    (split : old.flat = before ++ entry :: rest) (split' : new.flat = before' ++ entry' :: rest')
    (quiet : ∀ pair ∈ rest.zip rest', Quiet pair.1.kind pair.2.kind) (enough : rest.length < turns) :
    ∃ after : Node, diffLoop dom turns ⟨[old, new]⟩ entry.id entry'.id none none = .ok ⟨[after, new]⟩ ∧
      after.flat = before ++ entry :: mergeAll rest rest' := by
  induction rest generalizing old before before' entry entry' rest' turns with
  | nil =>
    obtain ⟨turns, rfl⟩ := Nat.exists_eq_succ_of_ne_zero (Nat.ne_zero_of_lt enough)
    refine ⟨old, ?_, split⟩
    rw [diffLoop, nextNode_old apart split]
    rfl
  | cons next rest ih =>
    obtain ⟨turns, rfl⟩ := Nat.exists_eq_succ_of_ne_zero (Nat.ne_zero_of_lt enough)
    cases rest' with
    | nil =>
      refine ⟨old, ?_, split⟩
      rw [diffLoop, nextNode_old apart split, nextNode_new apart split']
      rfl
    | cons next' rest' =>
      have kind := @kind_of_mem old new next apart (.inl (split ▸ by simp))
      have kind' := @kind_of_mem old new next' apart (.inr (split' ▸ by simp))
      have calm : Quiet next.kind next'.kind := quiet (next, next') List.mem_cons_self
      obtain ⟨page, turned, became⟩ := @diffNodes_quiet dom (diffLoop dom turns) turns next.id next'.id
        ⟨[old, new]⟩ next.kind next'.kind calm
      -- the walk goes on in a page that differs in the data of the next node
      have goes : diffLoop dom (turns + 1) ⟨[old, new]⟩ entry.id entry'.id none none =
          diffLoop dom turns page next.id next'.id none none := by
        rw [diffLoop, nextNode_old apart split, nextNode_new apart split']
        simp only [List.map_cons, List.head?_cons, Option.some_ne_none, or_self, if_false, kind, kind', turned]
        rfl
      have shorter : rest.length < turns := Nat.lt_of_succ_lt_succ enough
      have later : ∀ pair ∈ rest.zip rest', Quiet pair.1.kind pair.2.kind := fun pair mem =>
        quiet pair (List.mem_cons_of_mem _ mem)
      have move : ∀ {entries : List Entry} {first second : Entry} {others : List Entry},
          entries ++ first :: second :: others = entries ++ [first] ++ second :: others := by
        intro entries first second others
        rw [List.append_assoc]
        rfl
      rcases became with ⟨rfl, same⟩ | ⟨change, rfl, same⟩
      · obtain ⟨after, result, flat⟩ := ih apart (split.trans move) (split'.trans move) later shorter
        refine ⟨after, goes.trans result, flat.trans ?_⟩
        rw [mergeAll, same, ← move]
      · have other : next.id ∉ new.ids := fun there => (List.nodup_append.mp apart.nodup).2.2 _
          (List.mem_map_of_mem (show next ∈ old.flat from split ▸ by simp)) _ there rfl
        have updated : Page.update ⟨[old, new]⟩ next.id change = ⟨[old.update next.id change, new]⟩ := by
          rw [Page.update, updates, updates, updates, update_of_not_mem _ _ _ other]
        have nodup := (List.nodup_append.mp apart.nodup).1
        rw [Node.ids, split.trans move] at nodup
        have flat : (old.update next.id change).flat =
            before ++ [entry] ++ { next with kind := change next.kind } :: rest := by
          rw [flat_update, split.trans move]
          exact map_update_of_nodup nodup rfl
        rw [updated] at goes
        obtain ⟨after, result, flat⟩ := ih (apart_update apart) flat (split'.trans move) later shorter
        refine ⟨after, goes.trans result, flat.trans ?_⟩
        rw [mergeAll, same, ← move]

/-! ## The new page -/

/-- The same data, where the order of attributes does not matter. -/
def SameKind : Kind → Kind → Prop
  | .element tagName attributes, .element newTag new =>
      tagName = newTag ∧ ∀ name, attributes.lookup name = new.lookup name
  | .text content, .text new => content = new
  | .comment content, .comment new => content = new
  | .doctype name, .doctype new => name = new
  | .document, .document => True
  | .fragment, .fragment => True
  | _, _ => False

/-- Two pages have the same nodes in document order, with as many children each. -/
def SamePage (page new : Node) : Prop :=
  List.Forall₂ (fun entry other => SameKind entry.kind other.kind ∧ entry.children = other.children)
    page.flat new.flat

/-- The data differs in texts, or the values of attributes, or attributes that are new. -/
def Fits : Kind → Kind → Prop
  | .element tagName attributes, .element newTag new => tagName = newTag ∧ attributes.keys ⊆ new.keys
  | .text _, .text _ => True
  | .comment content, .comment new => content = new
  | .doctype name, .doctype new => name = new
  | .document, .document => True
  | .fragment, .fragment => True
  | _, _ => False

/-- The two pages differ in texts and attributes only, and no attribute is gone. -/
def Alike (page new : Node) : Prop :=
  List.Forall₂ (fun entry other => Fits entry.kind other.kind ∧ entry.children = other.children)
    page.flat new.flat

theorem lookup_foldl (name : String) {entries : List (Σ _ : String, String)} (nodup : entries.NodupKeys)
    (attributes : Attributes) :
    (entries.foldl (fun attributes new => attributes.insert new.1 new.2) attributes).lookup name =
      (entries.dlookup name).or (attributes.lookup name) := by
  induction entries generalizing attributes with
  | nil => rfl
  | cons new entries ih =>
    obtain ⟨key, value⟩ := new
    rw [List.nodupKeys_cons] at nodup
    rw [List.foldl_cons, ih nodup.2]
    by_cases same : name = key
    · subst same
      rw [List.dlookup_cons_eq, List.dlookup_eq_none.mpr nodup.1, AList.lookup_insert]
      rfl
    · rw [List.dlookup_cons_ne _ _ same, AList.lookup_insert_ne same]

theorem lookup_setAttributes (attributes new : Attributes) (name : String) :
    (new.foldl (fun attributes name value => attributes.insert name value) attributes).lookup name =
      (new.lookup name).or (attributes.lookup name) :=
  lookup_foldl name new.nodupKeys attributes

theorem sameKind_merge {old new : Kind} (quiet : Quiet old new) :
    SameKind (mergeKind old new) new ↔ Fits old new := by
  match old, new, quiet with
  | .text _, .text _, _ => exact iff_of_true rfl trivial
  | .comment _, .comment _, _ => exact Iff.rfl
  | .doctype _, .doctype _, _ => exact Iff.rfl
  | .document, .document, _ => exact Iff.rfl
  | .fragment, .fragment, _ => exact Iff.rfl
  | .element tagName attributes, .element newTag new, quiet =>
    refine and_congr_right fun _ => ⟨fun same name mem => ?_, fun subset name => ?_⟩
    · have found := same name
      rw [lookup_setAttributes] at found
      by_contra missing
      rw [AList.lookup_eq_none.mpr missing, Option.none_or] at found
      exact AList.lookup_eq_none.mp found mem
    · rw [lookup_setAttributes]
      by_cases mem : name ∈ new
      · obtain ⟨value, found⟩ := Option.isSome_iff_exists.mp (AList.lookup_isSome.mpr mem)
        rw [found, Option.some_or]
      · rw [AList.lookup_eq_none.mpr mem, AList.lookup_eq_none.mpr fun there => mem (subset there)]
        rfl

theorem same_mergeAll (quiet : ∀ pair ∈ rest.zip rest', Quiet pair.1.kind pair.2.kind) :
    List.Forall₂ (fun entry other => SameKind entry.kind other.kind ∧ entry.children = other.children)
        (mergeAll rest rest') rest' ↔
      List.Forall₂ (fun entry other => Fits entry.kind other.kind ∧ entry.children = other.children)
        rest rest' := by
  induction rest generalizing rest' with
  | nil =>
    cases rest' with
    | nil => exact iff_of_true .nil .nil
    | cons next' rest' => exact iff_of_false (fun same => by cases same) fun alike => by cases alike
  | cons next rest ih =>
    cases rest' with
    | nil => exact iff_of_false (fun same => by cases same) fun alike => by cases alike
    | cons next' rest' =>
      rw [mergeAll, List.forall₂_cons, List.forall₂_cons,
        sameKind_merge (quiet (next, next') List.mem_cons_self),
        ih fun pair mem => quiet pair (List.mem_cons_of_mem _ mem)]

section Pages

variable {document doc : ℕ} {nodes news : List Node}

/-- The page becomes like the new one. -/
def Becomes (dom : Dom) (document doc : ℕ) (nodes news : List Node) : Prop :=
  ∃ bound, ∀ turns, bound < turns → ∃ page : Node,
    diffPages dom turns ⟨[.mk document .document nodes, .mk doc .document news]⟩ document doc =
      .ok ⟨[page, .mk doc .document news]⟩ ∧ SamePage page (.mk doc .document news)

theorem diffPages_undisturbed (dom : Dom) {turns : ℕ}
    (apart : Apart (.mk document .document nodes) (.mk doc .document news))
    (undisturbed : ∀ pair ∈ (flats nodes).zip (flats news), Quiet pair.1.kind pair.2.kind)
    (enough : (flats nodes).length < turns) : ∃ page : Node,
      diffPages dom turns ⟨[.mk document .document nodes, .mk doc .document news]⟩ document doc =
        .ok ⟨[page, .mk doc .document news]⟩ ∧
      (SamePage page (.mk doc .document news) ↔
        Alike (.mk document .document nodes) (.mk doc .document news)) := by
  obtain ⟨page, result, flat⟩ := @diffLoop_undisturbed _ _ [] [] (flats nodes) (flats news)
    ⟨document, .document, nodes.length⟩ ⟨doc, .document, news.length⟩ dom turns apart rfl rfl undisturbed
    enough
  refine ⟨page, result, ?_⟩
  unfold SamePage Alike
  rw [flat, List.nil_append, Node.flat, Node.flat, List.forall₂_cons, List.forall₂_cons,
    same_mergeAll undisturbed]
  exact Iff.rfl

theorem alike_of_becomes {dom : Dom}
    (apart : Apart (.mk document .document nodes) (.mk doc .document news))
    (undisturbed : ∀ pair ∈ (flats nodes).zip (flats news), Quiet pair.1.kind pair.2.kind)
    (becomes : Becomes dom document doc nodes news) :
    Alike (.mk document .document nodes) (.mk doc .document news) := by
  obtain ⟨bound, becomes⟩ := becomes
  let turns := max bound (flats nodes).length + 1
  obtain ⟨page, result, same⟩ := becomes turns (Nat.lt_succ_of_le (le_max_left _ _))
  obtain ⟨page', result', iff⟩ := diffPages_undisturbed dom apart undisturbed
    (show (flats nodes).length < turns from Nat.lt_succ_of_le (le_max_right _ _))
  have equal : page = page' := by
    have pages := result.symm.trans result'
    injection pages with pages
    injection pages with trees
    exact (List.cons.inj trees).1
  exact iff.mp (equal ▸ same)

end Pages

/-- A browser of which nothing is asked. -/
def Dom.idle : Dom where
  replaceWith _ _ _ := none
  extractContents _ _ _ := none
  deleteContents _ _ _ := none
  insertNode _ _ _ := none

end Halyard.IslandsRouting
