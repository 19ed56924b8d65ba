import Halyard.Entries.Writers

/-!
# Texts that stand for entries

A text stands for an ordered list of named entries, as an attribute's text does for its tokens.  The
writers' changes are followed where they agree with a text that is written from the start
(`Follows.rebuildAll`).
-/

namespace Halyard.Entries

variable {Text Name Value : Type}

/-- A way to write entries as a text.  `Fits` says which entries it can carry, and `eager` that the text
is written again even where its entries have not changed. -/
structure Format (Text Name Value : Type) [DecidableEq Name] where
  parse : Text → List (Name × Value)
  print : List (Name × Value) → Text
  Fits : Name × Value → Prop
  eager : Bool
  nodup_parse : ∀ text, (names (parse text)).Nodup
  parse_print : ∀ entries, (names entries).Nodup → (∀ entry ∈ entries, Fits entry) →
    parse (print entries) = entries

namespace Format

variable [DecidableEq Name] [DecidableEq Value] (format : Format Text Name Value)

/-- The entries of a text, which may be absent. -/
def contents : Option Text → List (Name × Value)
  | none => []
  | some text => format.parse text

def write (entries : List (Name × Value)) (held : Option Text) : Option Text :=
  if format.eager = false ∧ format.contents held = entries then held
  else some (format.print entries)

/-- Writers to a text. -/
def onText : Target Text Name Value (Option Text) where
  set := some
  unset := none
  put name value held := format.write (put name value (format.contents held)) held
  take name held :=
    match held with
    | none => none
    | some text => format.write (take name (format.parse text)) (some text)

/-- The same writers, to the entries alone. -/
def onEntries : Target Text Name Value (List (Name × Value)) where
  set := format.parse
  unset := []
  put := put
  take := take

omit [DecidableEq Value] in
theorem nodup_contents (held : Option Text) : (names (format.contents held)).Nodup := by
  cases held with
  | none => exact List.nodup_nil
  | some text => exact format.nodup_parse text

/-- A text that is as the format prints it. -/
def Printed (text : Text) : Prop := format.print (format.parse text) = text

def Settled (held : Option Text) : Prop := ∀ text, held = some text → format.Printed text

def Clean (held : Option Text) : Prop :=
  ∀ entry ∈ format.contents held, format.Fits entry

/-- What is written can be carried. -/
def Carries : Write Text Name Value → Prop
  | .off => True
  | .text text => ∀ entry ∈ format.parse text, format.Fits entry
  | .entry name value => format.Fits (name, value)

/-- A write's result has an entry of this name. -/
def Holds (name : Name) : Write Text Name Value → Prop
  | .off => False
  | .text text => name ∈ names (format.parse text)
  | .entry other _ => other = name

/-- Whether the text is as printed after a write, given whether it was before. -/
def settles (before : Prop) : Write Text Name Value → Prop
  | .off => before
  | .text text => format.Printed text
  | .entry _ _ => before ∨ format.eager = true

section Write

variable {format}

theorem contents_write {entries : List (Name × Value)} (nodup : (names entries).Nodup)
    (fits : ∀ entry ∈ entries, format.Fits entry) (held : Option Text) :
    format.contents (format.write entries held) = entries := by
  unfold write
  split
  next same => exact same.2
  next => exact format.parse_print entries nodup fits

theorem settled_write {entries : List (Name × Value)} {held : Option Text}
    (nodup : (names entries).Nodup) (fits : ∀ entry ∈ entries, format.Fits entry)
    (settled : format.Settled held ∨ format.eager = true) :
    format.Settled (format.write entries held) := by
  unfold write
  split
  next same =>
    exact settled.resolve_right fun eager => Bool.false_ne_true (same.1.symm.trans eager)
  next =>
    rintro text ⟨⟩
    rw [Printed, format.parse_print entries nodup fits]

theorem isSome_write {entries : List (Name × Value)} {held : Option Text}
    (present : held.isSome = true ∨ entries ≠ []) :
    (format.write entries held).isSome = true := by
  unfold write
  split
  next same =>
    cases held with
    | some text => rfl
    | none => exact absurd same.2.symm (present.resolve_left Bool.false_ne_true)
  next => rfl

omit [DecidableEq Value] in
theorem clean_put {held : Option Text} {name : Name} {value : Value}
    (clean : format.Clean held) (fits : format.Fits (name, value)) :
    ∀ entry ∈ put name value (format.contents held), format.Fits entry := by
  intro entry there
  rcases mem_put there with rfl | there
  · exact fits
  · exact clean entry there

omit [DecidableEq Value] in
theorem clean_take {held : Option Text} {name : Name} (clean : format.Clean held) :
    ∀ entry ∈ take name (format.contents held), format.Fits entry :=
  fun entry there => clean entry (List.mem_filter.mp there).1

end Write

/-! ### Writers to a text and writers to its entries -/

section Contents

variable {format} {held : Option Text}

theorem contents_build (clean : format.Clean held) {write : Write Text Name Value}
    (carries : format.Carries write) :
    format.contents (format.onText.build held write) =
      format.onEntries.build (format.contents held) write := by
  cases write with
  | off => rfl
  | text text => rfl
  | entry name value =>
    exact contents_write (nodup_put (format.nodup_contents held)) (clean_put clean carries) _

theorem clean_build (clean : format.Clean held) {write : Write Text Name Value}
    (carries : format.Carries write) : format.Clean (format.onText.build held write) := by
  intro entry there
  rw [contents_build clean carries] at there
  cases write with
  | off => exact clean entry there
  | text text => exact carries entry there
  | entry name value => exact clean_put clean carries entry there

theorem contents_take (clean : format.Clean held) (name : Name) :
    format.contents (format.onText.take name held) =
      take name (format.contents held) := by
  cases held with
  | none => rfl
  | some text =>
    exact contents_write (nodup_take (format.nodup_parse text)) (clean_take clean) _

theorem clean_takeOut (clean : format.Clean held) (name : Name) :
    format.Clean (format.onText.take name held) := by
  intro entry there
  rw [contents_take clean name] at there
  exact clean_take clean entry there

variable [DecidableEq Text]

theorem contents_rebuild (clean : format.Clean held) {change : Change Text Name Value}
    (carries : format.Carries change.new) (keeps : change.KeepsText) :
    format.contents (format.onText.rebuild held change) =
        format.onEntries.rebuild (format.contents held) change ∧
      format.Clean (format.onText.rebuild held change) := by
  by_cases same : change.old = change.new
  · rw [Target.rebuild_of_eq _ same, Target.rebuild_of_eq _ same]
    exact ⟨rfl, clean⟩
  have noText := keeps.noText same
  rw [Target.rebuild_of_ne _ same noText, Target.rebuild_of_ne _ same noText]
  cases change.taken with
  | none => exact ⟨contents_build clean carries, clean_build clean carries⟩
  | some name =>
    refine ⟨(contents_build (clean_takeOut clean name) carries).trans ?_,
      clean_build (clean_takeOut clean name) carries⟩
    exact congrArg (format.onEntries.build · change.new) (contents_take clean name)

omit [DecidableEq Text] in
theorem contents_buildAll {writes : List (Write Text Name Value)} (clean : format.Clean held)
    (carries : ∀ write ∈ writes, format.Carries write) :
    format.contents (format.onText.buildAll writes held) =
        format.onEntries.buildAll writes (format.contents held) ∧
      format.Clean (format.onText.buildAll writes held) := by
  induction writes generalizing held with
  | nil => exact ⟨rfl, clean⟩
  | cons write rest ih =>
    have first := carries write List.mem_cons_self
    rw [Target.buildAll_cons, Target.buildAll_cons, ← contents_build clean first]
    exact ih (clean_build clean first) fun later there => carries later (List.mem_cons_of_mem _ there)

theorem contents_rebuildAll {changes : List (Change Text Name Value)} (clean : format.Clean held)
    (carries : ∀ change ∈ changes, format.Carries change.new)
    (keeps : ∀ change ∈ changes, change.KeepsText) :
    format.contents (format.onText.rebuildAll changes held) =
        format.onEntries.rebuildAll changes (format.contents held) ∧
      format.Clean (format.onText.rebuildAll changes held) := by
  induction changes generalizing held with
  | nil => exact ⟨rfl, clean⟩
  | cons change rest ih =>
    obtain ⟨entries, after⟩ :=
      contents_rebuild clean (carries change List.mem_cons_self) (keeps change List.mem_cons_self)
    rw [Target.rebuildAll_cons, Target.rebuildAll_cons, ← entries]
    exact ih after (fun later there => carries later (List.mem_cons_of_mem _ there))
      fun later there => keeps later (List.mem_cons_of_mem _ there)

/-! ### Texts as they are printed -/

omit [DecidableEq Text] in
theorem settled_build (clean : format.Clean held) {write : Write Text Name Value}
    (carries : format.Carries write) (settles : format.settles (format.Settled held) write) :
    format.Settled (format.onText.build held write) := by
  cases write with
  | off => exact settles
  | text text =>
    rintro _ ⟨⟩
    exact settles
  | entry name value =>
    exact settled_write (nodup_put (format.nodup_contents held)) (clean_put clean carries) settles

omit [DecidableEq Value] [DecidableEq Text] in
theorem settles_mono {writes : List (Write Text Name Value)} {before before' : Prop}
    (imp : before → before') (settles : writes.foldl format.settles before) :
    writes.foldl format.settles before' := by
  induction writes generalizing before before' with
  | nil => exact imp settles
  | cons write rest ih =>
    refine ih ?_ settles
    cases write with
    | off => exact imp
    | text text => exact id
    | entry name value => exact Or.imp_left imp

omit [DecidableEq Text] in
theorem settled_buildAll {writes : List (Write Text Name Value)} (clean : format.Clean held)
    (carries : ∀ write ∈ writes, format.Carries write)
    (settles : writes.foldl format.settles (format.Settled held)) :
    format.Settled (format.onText.buildAll writes held) := by
  induction writes generalizing held with
  | nil => exact settles
  | cons write rest ih =>
    have first := carries write List.mem_cons_self
    exact ih (clean_build clean first)
      (fun later there => carries later (List.mem_cons_of_mem _ there))
      (settles_mono (settled_build clean first) settles)

omit [DecidableEq Text] in
theorem settled_take (clean : format.Clean held) (name : Name)
    (settled : format.Settled held ∨ format.eager = true) :
    format.Settled (format.onText.take name held) := by
  cases held with
  | none => rintro _ ⟨⟩
  | some text => exact settled_write (nodup_take (format.nodup_parse text)) (clean_take clean) settled

omit [DecidableEq Text] in
theorem isSome_build {write : Write Text Name Value} (present : held.isSome = true ∨ write ≠ .off) :
    (format.onText.build held write).isSome = true := by
  cases write with
  | off => exact present.resolve_right fun on => on rfl
  | text text => rfl
  | entry name value =>
    refine isSome_write (Or.inr fun none => ?_)
    have here : name ∈ names (put name value (format.contents held)) := mem_names_put.mpr (Or.inl rfl)
    rw [none] at here
    cases here

omit [DecidableEq Text] in
theorem isSome_take (present : held.isSome = true) (name : Name) :
    (format.onText.take name held).isSome = true := by
  cases held with
  | none => cases present
  | some text => exact isSome_write (Or.inl rfl)

omit [DecidableEq Text] in
theorem isSome_buildAll {writes : List (Write Text Name Value)}
    (present : held.isSome = true ∨ ∃ write ∈ writes, write ≠ .off) :
    (format.onText.buildAll writes held).isSome = true := by
  induction writes generalizing held with
  | nil => exact present.resolve_right fun ⟨_, there, _⟩ => List.not_mem_nil there
  | cons write rest ih =>
    rw [Target.buildAll_cons]
    rcases present with here | ⟨on, there, other⟩
    · exact ih (Or.inl (isSome_build (Or.inl here)))
    · rcases List.mem_cons.mp there with rfl | later
      · exact ih (Or.inl (isSome_build (Or.inr other)))
      · exact ih (Or.inr ⟨on, later, other⟩)

theorem isSome_rebuild {change : Change Text Name Value} (keeps : change.KeepsText)
    (present : held.isSome = true) : (format.onText.rebuild held change).isSome = true := by
  by_cases same : change.old = change.new
  · rwa [Target.rebuild_of_eq _ same]
  · rw [Target.rebuild_of_ne _ same (keeps.noText same)]
    cases change.taken with
    | none => exact isSome_build (Or.inl present)
    | some name => exact isSome_build (Or.inl (isSome_take present name))

theorem isSome_rebuildAll {changes : List (Change Text Name Value)}
    (keeps : ∀ change ∈ changes, change.KeepsText) (present : held.isSome = true) :
    (format.onText.rebuildAll changes held).isSome = true := by
  induction changes generalizing held with
  | nil => exact present
  | cons change rest ih =>
    exact ih (fun later there => keeps later (List.mem_cons_of_mem _ there))
      (isSome_rebuild (keeps change List.mem_cons_self) present)

theorem settled_rebuild (clean : format.Clean held) {change : Change Text Name Value}
    (carries : format.Carries change.new) (keeps : change.KeepsText)
    (settled : format.Settled held ∨
      format.eager = true ∧ (change.taken ≠ none ∨ change.replaced ≠ none)) :
    format.Settled (format.onText.rebuild held change) := by
  by_cases same : change.old = change.new
  · rw [Target.rebuild_of_eq _ same]
    refine settled.resolve_right fun touched => ?_
    simp [Change.taken, Change.replaced, same] at touched
  have settles : ∀ held' : Option Text, format.Settled held' →
      format.settles (format.Settled held') change.new := by
    intro held' settled
    cases new : change.new with
    | off => exact settled
    | text text => exact absurd (keeps (Or.inr (by rw [new]; rfl))) same
    | entry name value => exact Or.inl settled
  rw [Target.rebuild_of_ne _ same (keeps.noText same)]
  cases gone : change.taken with
  | some name =>
    exact settled_build (clean_takeOut clean name) carries
      (settles _ (settled_take clean name (settled.imp_right And.left)))
  | none =>
    refine settled_build clean carries ?_
    rcases settled with settled | ⟨eager, touched⟩
    · exact settles held settled
    · have names : change.new.name = change.old.name := by
        by_contra differ
        have other := touched.resolve_left fun taken => taken gone
        exact other (if_neg fun both => differ both.1)
      obtain ⟨name, value, value', _, new⟩ := Change.entries_of_name keeps same names
      rw [new]
      exact Or.inr eager

theorem settled_rebuildAll {changes : List (Change Text Name Value)} (clean : format.Clean held)
    (carries : ∀ change ∈ changes, format.Carries change.new)
    (keeps : ∀ change ∈ changes, change.KeepsText)
    (settled : format.Settled held ∨ format.eager = true ∧
      ∃ change ∈ changes, change.taken ≠ none ∨ change.replaced ≠ none) :
    format.Settled (format.onText.rebuildAll changes held) := by
  induction changes generalizing held with
  | nil => exact settled.resolve_right fun ⟨_, _, there, _⟩ => List.not_mem_nil there
  | cons change rest ih =>
    have carry := carries change List.mem_cons_self
    have keep := keeps change List.mem_cons_self
    refine ih (contents_rebuild clean carry keep).2
      (fun later there => carries later (List.mem_cons_of_mem _ there))
      (fun later there => keeps later (List.mem_cons_of_mem _ there)) ?_
    rcases settled with settled | ⟨eager, touched, there, how⟩
    · exact Or.inl (settled_rebuild clean carry keep (Or.inl settled))
    · rcases List.mem_cons.mp there with rfl | later
      · exact Or.inl (settled_rebuild clean carry keep (Or.inr ⟨eager, how⟩))
      · exact Or.inr ⟨eager, touched, later, how⟩

omit [DecidableEq Text] [DecidableEq Value] in
/-- Printed texts that are there are the same where their entries are. -/
theorem eq_of_contents {held' : Option Text} (settled : format.Settled held)
    (settled' : format.Settled held') (present : held.isSome = true) (present' : held'.isSome = true)
    (entries : format.contents held = format.contents held') : held = held' := by
  obtain ⟨text, rfl⟩ := Option.isSome_iff_exists.mp present
  obtain ⟨text', rfl⟩ := Option.isSome_iff_exists.mp present'
  have same : format.parse text = format.parse text' := entries
  rw [← settled text rfl, ← settled' text' rfl, same]

end Contents

/-! ### Entries that go away -/

section Taken

variable {format} {gone : List Name}

omit [DecidableEq Value] in
theorem overwrites_onEntries : format.onEntries.Overwrites := by
  intro name value value' writes entries other
  have moved : ∀ entries : List (Name × Value), name ∈ names entries →
      put name value' (format.onEntries.buildAll writes entries) =
        format.onEntries.buildAll writes (put name value' entries) := by
    induction writes with
    | nil => exact fun _ _ => rfl
    | cons write rest ih =>
      intro entries present
      have first := other write List.mem_cons_self
      have next := ih fun later there => other later (List.mem_cons_of_mem _ there)
      cases write with
      | off => exact next entries present
      | text text => cases first.1
      | entry another value'' =>
        have differ : name ≠ another := fun same => first.2 (congrArg some same.symm)
        refine (next _ (mem_names_put.mpr (Or.inr present))).trans ?_
        exact congrArg (format.onEntries.buildAll rest) (put_comm present differ)
  refine (moved _ (mem_names_put.mpr (Or.inl rfl))).trans ?_
  exact congrArg (format.onEntries.buildAll writes) (put_put name value value' entries)

omit [DecidableEq Value] in
theorem without_build {write : Write Text Name Value} (apart : ∀ name ∈ gone, ¬format.Holds name write)
    (entries : List (Name × Value)) :
    without gone (format.onEntries.build entries write) =
      format.onEntries.build (without gone entries) write := by
  cases write with
  | off => rfl
  | text text => exact without_eq_self apart
  | entry name value => exact without_put (fun taken => apart name taken rfl) entries

omit [DecidableEq Value] in
/-- Without what is to go away, a text's entries come from the changes whose old entries have gone. -/
theorem without_buildOld {change : Change Text Name Value} (keeps : change.KeepsText)
    (taken : ∀ name, change.taken = some name → name ∈ gone)
    (apart : ∀ name ∈ gone, ¬format.Holds name change.new) (entries : List (Name × Value)) :
    without gone (format.onEntries.build entries change.old) =
      format.onEntries.build (without gone entries) change.emptied.old := by
  unfold Change.emptied
  split
  next stay =>
    by_cases names : change.new.name = change.old.name
    · by_cases same : change.old = change.new
      · rw [same]
        exact without_build apart entries
      · obtain ⟨name, value, value', old, new⟩ := Change.entries_of_name keeps same names
        rw [old]
        rw [new] at apart
        exact without_put (fun taken => apart name taken rfl) entries
    · have none : change.old.name = none := by rwa [Change.taken, if_neg names] at stay
      have differ : change.old ≠ change.new := fun same => names (by rw [same])
      rw [keeps.eq_off differ none]
      rfl
  next goes =>
    obtain ⟨name, taking⟩ := Option.ne_none_iff_exists'.mp goes
    have name_old : change.old.name = some name := by
      rw [Change.taken] at taking
      split at taking
      next => cases taking
      next => exact taking
    cases old : change.old with
    | off => rw [old] at name_old; cases name_old
    | text text => rw [old] at name_old; cases name_old
    | entry name' value =>
      rw [old] at name_old
      cases name_old
      exact without_put_of_mem (taken name taking) entries

variable [DecidableEq Text]

theorem without_rebuild {change : Change Text Name Value} (keeps : change.KeepsText)
    (taken : ∀ name, change.taken = some name → name ∈ gone)
    (apart : ∀ name ∈ gone, ¬format.Holds name change.new) (entries : List (Name × Value)) :
    without gone (format.onEntries.rebuild entries change) =
      format.onEntries.rebuild (without gone entries) change.emptied := by
  by_cases same : change.old = change.new
  · have stay : change.taken = none := if_pos (by rw [same])
    rw [Change.emptied, if_pos stay, Target.rebuild_of_eq _ same, Target.rebuild_of_eq _ same]
  have noText := keeps.noText same
  rw [Target.rebuild_of_ne _ same noText]
  cases goes : change.taken with
  | none =>
    rw [Change.emptied, if_pos goes, Target.rebuild_of_ne _ same noText, goes]
    exact without_build apart entries
  | some name =>
    have emptied : change.emptied = ⟨.off, change.new⟩ := if_neg (by rw [goes]; exact Option.some_ne_none name)
    refine (without_build apart _).trans ?_
    rw [show without gone ((Option.map format.onEntries.take (some name)).elim entries
      fun undo => undo entries) = without gone entries from without_take (taken name goes) entries,
      emptied]
    by_cases off : change.new = .off
    · rw [Target.rebuild_of_eq _ (show Write.off = change.new from off.symm), off]
      rfl
    · have nothing : (⟨.off, change.new⟩ : Change Text Name Value).taken = none := ite_self none
      rw [Target.rebuild_of_ne _ (Ne.symm off) rfl, nothing]
      rfl

omit [DecidableEq Value] [DecidableEq Text] in
theorem without_buildAll_old {changes : List (Change Text Name Value)}
    (keeps : ∀ change ∈ changes, change.KeepsText)
    (taken : ∀ change ∈ changes, ∀ name, change.taken = some name → name ∈ gone)
    (apart : ∀ change ∈ changes, ∀ name ∈ gone, ¬format.Holds name change.new)
    (entries : List (Name × Value)) :
    without gone (format.onEntries.buildAll (changes.map Change.old) entries) =
      format.onEntries.buildAll ((changes.map Change.emptied).map Change.old)
        (without gone entries) := by
  induction changes generalizing entries with
  | nil => rfl
  | cons change rest ih =>
    have first := without_buildOld (keeps change List.mem_cons_self) (taken change List.mem_cons_self)
      (apart change List.mem_cons_self) entries
    simp only [List.map_cons, Target.buildAll_cons]
    rw [← first]
    exact ih (fun later there => keeps later (List.mem_cons_of_mem _ there))
      (fun later there => taken later (List.mem_cons_of_mem _ there))
      (fun later there => apart later (List.mem_cons_of_mem _ there)) _

theorem without_rebuildAll {changes : List (Change Text Name Value)}
    (keeps : ∀ change ∈ changes, change.KeepsText)
    (taken : ∀ change ∈ changes, ∀ name, change.taken = some name → name ∈ gone)
    (apart : ∀ change ∈ changes, ∀ name ∈ gone, ¬format.Holds name change.new)
    (entries : List (Name × Value)) :
    without gone (format.onEntries.rebuildAll changes entries) =
      format.onEntries.rebuildAll (changes.map Change.emptied) (without gone entries) := by
  induction changes generalizing entries with
  | nil => rfl
  | cons change rest ih =>
    have first := without_rebuild (keeps change List.mem_cons_self) (taken change List.mem_cons_self)
      (apart change List.mem_cons_self) entries
    simp only [List.map_cons, Target.rebuildAll_cons]
    rw [← first]
    exact ih (fun later there => keeps later (List.mem_cons_of_mem _ there))
      (fun later there => taken later (List.mem_cons_of_mem _ there))
      (fun later there => apart later (List.mem_cons_of_mem _ there)) _

omit [DecidableEq Value] [DecidableEq Text] in
theorem mem_names_build {write : Write Text Name Value} {name : Name} {entries : List (Name × Value)}
    (apart : ¬format.Holds name write) (there : name ∈ names (format.onEntries.build entries write)) :
    name ∈ names entries := by
  cases write with
  | off => exact there
  | text text => exact absurd there apart
  | entry other value =>
    exact (mem_names_put.mp there).resolve_left fun same => apart same.symm

/-- An entry that no writer still wants is only there if it was and no change takes it. -/
theorem mem_names_rebuildAll {changes : List (Change Text Name Value)} {name : Name}
    {entries : List (Name × Value)} (keeps : ∀ change ∈ changes, change.KeepsText)
    (apart : ∀ change ∈ changes, ¬format.Holds name change.new)
    (there : name ∈ names (format.onEntries.rebuildAll changes entries)) :
    name ∈ names entries ∧ ∀ change ∈ changes, change.taken ≠ some name := by
  induction changes generalizing entries with
  | nil => exact ⟨there, fun _ mem => absurd mem List.not_mem_nil⟩
  | cons change rest ih =>
    obtain ⟨before, later⟩ := ih (fun later mem => keeps later (List.mem_cons_of_mem _ mem))
      (fun later mem => apart later (List.mem_cons_of_mem _ mem)) there
    have first : name ∈ names entries ∧ change.taken ≠ some name := by
      by_cases same : change.old = change.new
      · rw [Target.rebuild_of_eq _ same] at before
        refine ⟨before, ?_⟩
        rw [Change.taken, if_pos (by rw [same])]
        exact (Option.some_ne_none name).symm
      · rw [Target.rebuild_of_ne _ same ((keeps change List.mem_cons_self).noText same)] at before
        have cleared := mem_names_build (apart change List.mem_cons_self) before
        cases goes : change.taken with
        | none =>
          rw [goes] at cleared
          exact ⟨cleared, (Option.some_ne_none name).symm⟩
        | some other =>
          rw [goes] at cleared
          obtain ⟨was, differ⟩ := mem_names_take.mp cleared
          exact ⟨was, fun same => differ (Option.some.inj same).symm⟩
    refine ⟨first.1, fun changed mem => ?_⟩
    rcases List.mem_cons.mp mem with rfl | mem
    · exact first.2
    · exact later changed mem

end Taken

/-! ### Changes in place -/

variable [DecidableEq Text]

/-- The text that the writers leave is there and as printed, and every write is one it can carry. -/
structure Leaves (changes : List (Change Text Name Value)) : Prop where
  present : ∃ change ∈ changes, change.new ≠ .off
  settles : (changes.map Change.new).foldl format.settles True
  carries : ∀ change ∈ changes, format.Carries change.old ∧ format.Carries change.new

/-- No whole text changes.  What comes, comes last; what changes its value is not written again by a
later writer; and what goes away is not wanted by another. -/
structure InPlace (changes : List (Change Text Name Value)) : Prop where
  texts : ∀ change ∈ changes, change.KeepsText
  added : changes.Pairwise fun change later =>
    change.added ≠ none → later.new = .off ∨ later.added ≠ none
  replaced : changes.Pairwise fun change later => ∀ name, change.replaced = some name →
    later.old.isText = false ∧ later.old.name ≠ some name
  taken : ∀ change ∈ changes, ∀ name, change.taken = some name →
    ∀ other ∈ changes, ¬format.Holds name other.new
  leaves : (∃ change ∈ changes, change.taken ≠ none ∨ change.replaced ≠ none) →
    format.Leaves changes

section InPlace

variable {format} {changes : List (Change Text Name Value)}

omit [DecidableEq Value] [DecidableEq Text] in
theorem clean_none : format.Clean none :=
  fun _ there => absurd there List.not_mem_nil

omit [DecidableEq Value] [DecidableEq Text] in
theorem settled_none : format.Settled none := by
  rintro _ ⟨⟩

/-- Where texts are only printed again when entries change, the kept texts decide. -/
theorem settles_old (lazy : format.eager = false) (texts : ∀ change ∈ changes, change.KeepsText)
    {before : Prop} (settles : (changes.map Change.new).foldl format.settles before) :
    (changes.map Change.old).foldl format.settles before := by
  induction changes generalizing before with
  | nil => exact settles
  | cons change rest ih =>
    refine ih (fun later there => texts later (List.mem_cons_of_mem _ there))
      (settles_mono (fun settled => ?_) settles)
    by_cases same : change.old = change.new
    · rwa [same]
    have keeps := texts change List.mem_cons_self
    have now : before := by
      cases new : change.new with
      | off => rwa [new] at settled
      | text text => exact absurd (keeps (Or.inr (by rw [new]; rfl))) same
      | entry name value =>
        rw [new] at settled
        exact settled.resolve_right fun eager => Bool.false_ne_true (lazy.symm.trans eager)
    cases old : change.old with
    | off => exact now
    | text text => exact absurd (keeps (Or.inl (by rw [old]; rfl))) same
    | entry name value => exact Or.inl now

theorem InPlace.entries (inPlace : format.InPlace changes) :
    format.onEntries.rebuildAll changes (format.onEntries.buildAll (changes.map Change.old) []) =
      format.onEntries.buildAll (changes.map Change.new) [] := by
  obtain ⟨texts, added, replaced, taken, _⟩ := inPlace
  let gone := changes.filterMap Change.taken
  have goes : ∀ change ∈ changes, ∀ name, change.taken = some name → name ∈ gone :=
    fun change there name taking => List.mem_filterMap.mpr ⟨change, there, taking⟩
  have apart : ∀ change ∈ changes, ∀ name ∈ gone, ¬format.Holds name change.new := by
    intro other mem name there
    obtain ⟨change, origin, taking⟩ := List.mem_filterMap.mp there
    exact taken change origin name taking other mem
  have absent : ∀ name ∈ gone, name ∉ names (format.onEntries.rebuildAll changes
      (format.onEntries.buildAll (changes.map Change.old) [])) := by
    intro name there still
    obtain ⟨change, origin, taking⟩ := List.mem_filterMap.mp there
    exact (mem_names_rebuildAll texts (fun other mem => apart other mem name there) still).2
      change origin taking
  rw [← without_eq_self absent, without_rebuildAll texts goes apart,
    without_buildAll_old texts goes apart]
  have news : (changes.map Change.emptied).map Change.new = changes.map Change.new := by
    rw [List.map_map]
    exact List.map_congr_left fun change _ => change.emptied_new
  refine (format.onEntries.rebuildAll_inPlace [] ?_ ?_ ?_ ?_ (Or.inr overwrites_onEntries)).trans
    (by rw [news])
  · intro emptied there
    obtain ⟨change, mem, rfl⟩ := List.mem_map.mp there
    exact Change.emptied_keepsText (texts change mem)
  · intro emptied there
    obtain ⟨change, mem, rfl⟩ := List.mem_map.mp there
    exact change.emptied_taken
  · refine List.pairwise_map.mpr (added.imp fun {change later} order comes => ?_)
    rw [Change.emptied_added] at comes ⊢
    rw [Change.emptied_new]
    exact order comes
  · refine List.pairwise_map.mpr (replaced.imp fun {change later} order name other => ?_)
    have kept := order name (Change.emptied_replaced other)
    rcases later.emptied_old with same | off
    · rwa [same]
    · rw [off]
      exact ⟨rfl, (Option.some_ne_none name).symm⟩

theorem old_ne_off {change : Change Text Name Value}
    (touched : change.taken ≠ none ∨ change.replaced ≠ none) : change.old ≠ .off := by
  intro off
  rcases touched with taken | replaced
  · rw [Change.taken, off] at taken
    exact taken (ite_self none)
  · rw [Change.replaced, off] at replaced
    exact replaced (ite_self none)

/-- Rebuilt after changes in place, the text is the one that is built from the new writes. -/
theorem InPlace.rebuildAll (inPlace : format.InPlace changes) :
    format.onText.rebuildAll changes (format.onText.buildAll (changes.map Change.old) none) =
      format.onText.buildAll (changes.map Change.new) none := by
  by_cases touched : ∃ change ∈ changes, change.taken ≠ none ∨ change.replaced ≠ none
  · obtain ⟨⟨on, onMem, isOn⟩, settles, carries⟩ := inPlace.leaves touched
    have oldCarries : ∀ write ∈ changes.map Change.old, format.Carries write := by
      intro write there
      obtain ⟨change, mem, rfl⟩ := List.mem_map.mp there
      exact (carries change mem).1
    have newCarries : ∀ write ∈ changes.map Change.new, format.Carries write := by
      intro write there
      obtain ⟨change, mem, rfl⟩ := List.mem_map.mp there
      exact (carries change mem).2
    have carriesNew := fun change mem => (carries change mem).2
    have start : format.Clean none := clean_none
    obtain ⟨oldEntries, oldClean⟩ := contents_buildAll start oldCarries
    obtain ⟨rebuilt, _⟩ := contents_rebuildAll oldClean carriesNew inPlace.texts
    have fromStart : (changes.map Change.new).foldl format.settles (format.Settled none) :=
      settles_mono (fun _ => settled_none) settles
    have oldPresent : (format.onText.buildAll (changes.map Change.old) none).isSome = true := by
      obtain ⟨change, mem, how⟩ := touched
      exact isSome_buildAll (Or.inr ⟨change.old, List.mem_map_of_mem mem, old_ne_off how⟩)
    refine eq_of_contents ?_ (settled_buildAll clean_none newCarries fromStart)
      (isSome_rebuildAll inPlace.texts oldPresent)
      (isSome_buildAll (Or.inr ⟨on.new, List.mem_map_of_mem onMem, isOn⟩)) ?_
    · refine settled_rebuildAll oldClean carriesNew inPlace.texts ?_
      cases eager : format.eager with
      | true => exact Or.inr ⟨rfl, touched⟩
      | false =>
        exact Or.inl (settled_buildAll clean_none oldCarries
          (settles_old eager inPlace.texts fromStart))
    · rw [rebuilt, oldEntries, (contents_buildAll clean_none newCarries).1]
      exact inPlace.entries
  · have untouched : ∀ change ∈ changes, change.taken = none ∧ change.replaced = none := by
      intro change mem
      constructor
      · by_contra taken
        exact touched ⟨change, mem, Or.inl taken⟩
      · by_contra replaced
        exact touched ⟨change, mem, Or.inr replaced⟩
    exact format.onText.rebuildAll_inPlace none inPlace.texts
      (fun change mem => (untouched change mem).1) inPlace.added inPlace.replaced
      (Or.inl fun change mem => (untouched change mem).2)

end InPlace

/-! ### A whole text written anew -/

/-- A whole text changes, as the last one to do so.  What comes after it is written again where it is
wanted, and a text that is removed was the only one. -/
structure Anew (before : List (Change Text Name Value)) (change : Change Text Name Value)
    (after : List (Change Text Name Value)) : Prop where
  changed : change.old ≠ change.new
  whole : change.new.isText = true ∨
    change.old.isText = true ∧ change.new = .off ∧ ∀ earlier ∈ before, earlier.new = .off
  texts : ∀ later ∈ after, later.KeepsText
  again : ∀ later ∈ after, later.new ≠ .off → later.old ≠ later.new
  taken : ∀ later ∈ after, ∀ name, later.taken = some name →
    ∀ other ∈ change :: after, ¬format.Holds name other.new
  leaves : (∃ later ∈ after, later.taken ≠ none) →
    (∀ later ∈ change :: after, format.Carries later.new) ∧
      ((change :: after).map Change.new).foldl format.settles True

section Anew

variable {format} {before after : List (Change Text Name Value)} {change : Change Text Name Value}

theorem rebuild_text (changed : change.old ≠ change.new) (whole : change.new.isText = true)
    (held : Option Text) :
    format.onText.rebuild held change = format.onText.build none change.new := by
  rw [Target.rebuild, if_neg changed]
  cases new : change.new with
  | off => rw [new] at whole; cases whole
  | text text => rfl
  | entry name value => rw [new] at whole; cases whole

omit [DecidableEq Text] in
theorem take_absent {held : Option Text} {name : Name} (clean : format.Clean held)
    (settled : format.Settled held) (absent : name ∉ names (format.contents held)) :
    format.onText.take name held = held := by
  cases held with
  | none => rfl
  | some text =>
    refine eq_of_contents (settled_take clean name (Or.inl settled)) settled
      (isSome_take rfl name) rfl ?_
    rw [contents_take clean name, take_eq_self absent]

/-- Nothing that is to be taken away is there, once a whole text has been written. -/
theorem rebuildAll_after {held : Option Text} {gone : List Name} (clean : format.Clean held)
    (settled : format.Settled held) (absent : ∀ name ∈ gone, name ∉ names (format.contents held))
    (texts : ∀ later ∈ after, later.KeepsText)
    (again : ∀ later ∈ after, later.new ≠ .off → later.old ≠ later.new)
    (goes : ∀ later ∈ after, ∀ name, later.taken = some name → name ∈ gone)
    (apart : ∀ later ∈ after, ∀ name ∈ gone, ¬format.Holds name later.new)
    (carries : ∀ later ∈ after, format.Carries later.new) :
    format.onText.rebuildAll after held = format.onText.buildAll (after.map Change.new) held := by
  let Holds : Option Text → Prop := fun held =>
    format.Clean held ∧ format.Settled held ∧ ∀ name ∈ gone, name ∉ names (format.contents held)
  refine format.onText.rebuildAll_again Holds ⟨clean, settled, absent⟩ texts again ?_ ?_
  · rintro held ⟨clean, settled, absent⟩ later there
    have carry := carries later there
    refine ⟨clean_build clean carry, settled_build clean carry ?_, fun name taken still => ?_⟩
    · cases new : later.new with
      | off => exact settled
      | entry name value => exact Or.inl settled
      | text text =>
        have on : later.new ≠ .off := by
          rw [new]
          rintro ⟨⟩
        exact absurd (texts later there (Or.inr (by rw [new]; rfl))) (again later there on)
    · rw [contents_build clean carry] at still
      exact absent name taken (mem_names_build (apart later there name taken) still)
  · rintro held ⟨clean, settled, absent⟩ later there name taking
    exact take_absent clean settled (absent name (goes later there name taking))

omit [DecidableEq Value] [DecidableEq Text] in
theorem settles_of_entries {writes : List (Write Text Name Value)}
    (entries : ∀ write ∈ writes, write.isText = false) {before : Prop}
    (settles : writes.foldl format.settles before) : before ∨ format.eager = true := by
  induction writes generalizing before with
  | nil => exact Or.inl settles
  | cons write rest ih =>
    have rest := ih (fun later there => entries later (List.mem_cons_of_mem _ there)) settles
    cases write with
    | off => exact rest
    | text text => cases entries _ List.mem_cons_self
    | entry name value => exact rest.elim id Or.inr

omit [DecidableEq Value] [DecidableEq Text] in
theorem Anew.noText (anew : format.Anew before change after) {later : Change Text Name Value}
    (there : later ∈ after) : later.new.isText = false := by
  by_contra text
  have whole : later.new.isText = true := by simpa using text
  refine anew.again later there (fun off => ?_) (anew.texts later there (Or.inr whole))
  rw [off] at whole
  cases whole

theorem Anew.rebuildAfter (anew : format.Anew before change after) :
    format.onText.rebuildAll after (format.onText.build none change.new) =
      format.onText.buildAll (after.map Change.new) (format.onText.build none change.new) := by
  by_cases touched : ∃ later ∈ after, later.taken ≠ none
  · obtain ⟨carries, settles⟩ := anew.leaves touched
    let gone := after.filterMap Change.taken
    have goes : ∀ later ∈ after, ∀ name, later.taken = some name → name ∈ gone :=
      fun later there name taking => List.mem_filterMap.mpr ⟨later, there, taking⟩
    have apart : ∀ other ∈ change :: after, ∀ name ∈ gone, ¬format.Holds name other.new := by
      intro other mem name there
      obtain ⟨later, origin, taking⟩ := List.mem_filterMap.mp there
      exact anew.taken later origin name taking other mem
    have apartAfter := fun later there => apart later (List.mem_cons_of_mem change there)
    have carry := carries change List.mem_cons_self
    have carriesAfter := fun later there => carries later (List.mem_cons_of_mem change there)
    have clean : format.Clean (format.onText.build none change.new) := clean_build clean_none carry
    have settledNow : format.settles True change.new →
        format.Settled (format.onText.build none change.new) := by
      intro now
      have fromNone : [change.new].foldl format.settles (format.Settled none) :=
        settles_mono (fun _ => settled_none) now
      exact settled_build clean_none carry fromNone
    have absent : ∀ name ∈ gone,
        name ∉ names (format.contents (format.onText.build none change.new)) := by
      intro name taken still
      rw [contents_build clean_none carry] at still
      cases mem_names_build (apart change List.mem_cons_self name taken) still
    by_cases settled : format.Settled (format.onText.build none change.new)
    · exact rebuildAll_after clean settled absent anew.texts anew.again goes apartAfter carriesAfter
    · -- the text that is written is not as printed: then every later write prints it again
      have newCarries : ∀ write ∈ after.map Change.new, format.Carries write := by
        intro write there
        obtain ⟨later, mem, rfl⟩ := List.mem_map.mp there
        exact carriesAfter later mem
      have noText : ∀ write ∈ after.map Change.new, write.isText = false := by
        intro write there
        obtain ⟨later, mem, rfl⟩ := List.mem_map.mp there
        exact anew.noText mem
      have eager : format.eager = true :=
        (settles_of_entries noText settles).resolve_left fun now => settled (settledNow now)
      have present : (format.onText.build none change.new).isSome = true := by
        cases made : format.onText.build none change.new with
        | none =>
          rw [made] at settled
          exact absurd settled_none settled
        | some text => rfl
      refine eq_of_contents
        (settled_rebuildAll clean carriesAfter anew.texts (Or.inr ⟨eager, ?_⟩))
        (settled_buildAll clean newCarries (settles_mono settledNow settles))
        (isSome_rebuildAll anew.texts present) (isSome_buildAll (Or.inl present)) ?_
      · obtain ⟨later, mem, taken⟩ := touched
        exact ⟨later, mem, Or.inl taken⟩
      · rw [(contents_rebuildAll clean carriesAfter anew.texts).1, (contents_buildAll clean newCarries).1]
        refine format.onEntries.rebuildAll_again (fun entries => ∀ name ∈ gone, name ∉ names entries)
          absent anew.texts anew.again ?_ ?_
        · intro entries apartNow later there name taken still
          exact apartNow name taken (mem_names_build (apartAfter later there name taken) still)
        · intro entries apartNow later there name taking
          exact take_eq_self (apartNow name (goes later there name taking))
  · refine format.onText.rebuildAll_again (fun _ => True) trivial anew.texts anew.again
      (fun _ _ _ _ => trivial) fun _ _ later there name taking => ?_
    exact absurd ⟨later, there, by rw [taking]; exact Option.some_ne_none name⟩ touched

/-- Rebuilt after a whole text has changed, the text is the one that is built from the new writes. -/
theorem Anew.rebuildAll (anew : format.Anew before change after) (held : Option Text) :
    format.onText.rebuildAll (before ++ change :: after) held =
      format.onText.buildAll ((before ++ change :: after).map Change.new) none := by
  rw [Target.rebuildAll_append, Target.rebuildAll_cons, List.map_append, List.map_cons,
    Target.buildAll_append, Target.buildAll_cons]
  have rebuilt : format.onText.rebuild (format.onText.rebuildAll before held) change =
      format.onText.build none change.new := by
    rcases anew.whole with text | ⟨text, off, _⟩
    · exact rebuild_text anew.changed text _
    · rw [Target.rebuild, if_neg anew.changed, Target.clear, if_pos text, off]
      rfl
  have built : format.onText.build (format.onText.buildAll (before.map Change.new) none) change.new =
      format.onText.build none change.new := by
    rcases anew.whole with text | ⟨_, _, others⟩
    · cases new : change.new with
      | off => rw [new] at text; cases text
      | text text => rfl
      | entry name value => rw [new] at text; cases text
    · rw [Target.buildAll_off]
      intro write there
      obtain ⟨earlier, mem, rfl⟩ := List.mem_map.mp there
      exact others earlier mem
  rw [rebuilt, built]
  exact anew.rebuildAfter

end Anew

/-- The changes of a step, after which the text is the one that the new writes would make. -/
def Follows (changes : List (Change Text Name Value)) : Prop :=
  format.InPlace changes ∨
    ∃ before change after, changes = before ++ change :: after ∧ format.Anew before change after

theorem Follows.rebuildAll {format : Format Text Name Value}
    {changes : List (Change Text Name Value)} (follows : format.Follows changes) :
    format.onText.rebuildAll changes (format.onText.buildAll (changes.map Change.old) none) =
      format.onText.buildAll (changes.map Change.new) none := by
  rcases follows with inPlace | ⟨before, change, after, rfl, anew⟩
  · exact inPlace.rebuildAll
  · exact anew.rebuildAll _

end Format

end Halyard.Entries
