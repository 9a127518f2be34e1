import Nodepilot.Model.Queue

/-!
# The documents `load_queue` accepts

The documented form of a queue (`Documented`) says nothing of how it is checked.
`load_queue` checks it in five places and in a fixed order: whether the document is
true, the global block, whether `jobs` is a list, each entry, the ids.  Some of what
it meets on the way it does not check but uses: a block or an entry as a mapping, a
budget as a number, an id as a member of a set.  What such a use raises is not
`ValueError`, and a value that is false passes for one that is not there.

`Checked` says which documents meet no such use before they are settled, and those
are exactly the documents on which the function keeps its contract
(`queue_contract_iff`).
-/

namespace Nodepilot

open Trees

/-! ## The documented form -/

mutual

/-- `v == w`: a list is compared in order, a mapping key by key. -/
def Value.equal : Value → Value → Bool
  | .leaf a, .leaf b => a.canonical == b.canonical
  | .list xs, .list ys => Value.equalItems xs ys
  | .dict xs, .dict ys => xs.length == ys.length && Value.equalBranches xs ys
  | _, _ => false

def Value.equalItems : List Value → List Value → Bool
  | [], [] => true
  | x :: xs, y :: ys => Value.equal x y && Value.equalItems xs ys
  | _, _ => false

def Value.equalBranches : List (Scalar × Value) → List (Scalar × Value) → Bool
  | [], _ => true
  | (k, x) :: xs, ys =>
      (match ys.find? fun y => y.1.canonical == k.canonical with
        | some y => Value.equal x y.2
        | none => false) && Value.equalBranches xs ys

end

/-- Two values are equal. -/
def Value.Equal (v w : Value) : Prop :=
  Value.equal v w = true

theorem Value.equal_leaf {a b : Scalar} :
    Value.Equal (.leaf a) (.leaf b) ↔ a.canonical = b.canonical := by
  rw [Value.Equal, Value.equal, beq_iff_eq]

/-- The branches of a mapping. -/
def Value.branches : Value → List (Scalar × Value)
  | .dict items => items
  | _ => []

/-- A mapping with the keys `id` and `command`. -/
def JobDocumented (entry : Value) : Prop :=
  ∃ items, entry = .dict items ∧ (getKey "id" items).isSome ∧ (getKey "command" items).isSome

/-- The job an entry describes: the values of the known keys, defaults for the rest. -/
def entryRecord (entry : Value) : JobRecord where
  get field := (getKey field.name entry.branches).getD field.default

/-- The id of an entry. -/
def entryId (entry : Value) : Value :=
  (entryRecord entry).get .id

/-- Job entries of which no two ids are equal. -/
structure EntriesDocumented (entries : List Value) : Prop where
  jobs : ∀ entry ∈ entries, JobDocumented entry
  ids : entries.Pairwise fun a b => ¬ Value.Equal (entryId a) (entryId b)

/-- A number. -/
inductive Numeric : Value → Prop
  | int (n : ℤ) : Numeric (.leaf (.int n))
  | float (x : PyFloat) : Numeric (.leaf (.float x))

/-- A global block that is absent, null or a mapping with numeric budgets. -/
inductive GlobalDocumented : Option Value → Prop
  | absent : GlobalDocumented none
  | null : GlobalDocumented (some (.leaf .none))
  | mapping {items : List (Scalar × Value)}
      (hcores : ∀ v, getKey "core_budget" items = some v → Numeric v)
      (hram : ∀ v, getKey "ram_budget_gb" items = some v → Numeric v) :
      GlobalDocumented (some (.dict items))

/-- The documented form, with the job entries. -/
inductive Documented : Value → List Value → Prop
  | empty : Documented (.leaf .none) []
  | list {entries : List Value} (hentries : EntriesDocumented entries) :
      Documented (.list entries) entries
  | mapping {items : List (Scalar × Value)} {entries : List Value}
      (hglobal : GlobalDocumented (getKey "global" items))
      (hjobs : (getKey "jobs" items).getD (.list []) = .list entries)
      (hentries : EntriesDocumented entries) : Documented (.dict items) entries

/-- What the docstring promises: a queue of the documented form is loaded, its jobs in the
order of the file, and any other raises `ValueError`. -/
structure QueueContract (py : Interpreter) (host : HostSize) (doc : Value) : Prop where
  accepts : ∀ entries, Documented doc entries →
    ∃ config, loadQueue py host doc = .ok (config, entries.map entryRecord)
  refuses : (¬ ∃ entries, Documented doc entries) →
    ∃ e, loadQueue py host doc = .error e ∧ e.cls = .valueError

/-! ## What is used unchecked -/

/-- What can be compared with zero: the numbers, and the booleans among them. -/
inductive Comparable : Value → Prop
  | number {v : Value} (h : Numeric v) : Comparable v
  | bool (b : Bool) : Comparable (.leaf (.bool b))

/-- A global block that is true is a mapping, and the budgets in it are compared. -/
def GlobalReadable (block : Option Value) : Prop :=
  ∀ v, block = some v → v.truthy = true → ∃ items, v = .dict items ∧
    (∀ budget, getKey "core_budget" items = some budget → Comparable budget) ∧
    (∀ budget, getKey "ram_budget_gb" items = some budget → Comparable budget)

/-- An entry that is reached is a mapping, and an id that is reached is neither a list nor a
mapping.  The entries are gone through before the ids, up to the first that is refused. -/
structure EntriesReadable (entries : List Value) : Prop where
  mappings : ∀ before entry after, entries = before ++ entry :: after →
    (∀ earlier ∈ before, JobDocumented earlier) → ∃ items, entry = .dict items
  scalars : (∀ entry ∈ entries, JobDocumented entry) →
    ∀ before entry after, entries = before ++ entry :: after →
      (before.Pairwise fun a b => ¬ Value.Equal (entryId a) (entryId b)) →
        ∃ a, entryId entry = .leaf a

/-- The documents whose form is settled by what is checked. -/
inductive Checked : Value → Prop
  | null : Checked (.leaf .none)
  | scalar {a : Scalar} (h : a.truthy = true) : Checked (.leaf a)
  | list {entries : List Value} (h : EntriesReadable entries) : Checked (.list entries)
  | mapping {items : List (Scalar × Value)}
      (hglobal : GlobalReadable (getKey "global" items))
      (hentries : ∀ entries, (getKey "jobs" items).getD (.list []) = .list entries →
        EntriesReadable entries ∧
          (EntriesDocumented entries → GlobalDocumented (getKey "global" items))) :
      Checked (.dict items)

/-! ## The first that fails -/

section

variable {α : Type}

/-- A property of lists holds of the whole, or there is a member at which it is lost. -/
theorem all_or_first (Q : List α → Prop) (h : Q []) (xs : List α) :
    Q xs ∨ ∃ before x after, xs = before ++ x :: after ∧ Q before ∧ ¬ Q (before ++ [x]) := by
  induction xs using List.reverseRecOn with
  | nil => exact Or.inl h
  | append_singleton xs x ih =>
      rcases ih with hall | ⟨before, y, after, rfl, hbefore, hlost⟩
      · by_cases hx : Q (xs ++ [x])
        · exact Or.inl hx
        · exact Or.inr ⟨xs, x, [], rfl, hall, hx⟩
      · exact Or.inr ⟨before, y, after ++ [x], by simp, hbefore, hlost⟩

/-- Of two places in a list one comes first, or they are the same. -/
theorem places {before before' after after' : List α} {x y : α}
    (h : before ++ x :: after = before' ++ y :: after') :
    (∃ between, before = before' ++ y :: between) ∨ (before = before' ∧ x = y) ∨
      ∃ between, before' = before ++ x :: between := by
  rcases List.append_eq_append_iff.mp h with ⟨rest, hbefore, hrest⟩ | ⟨rest, hbefore, hrest⟩
  · cases rest with
    | nil =>
        simp only [List.nil_append, List.cons.injEq] at hrest
        exact Or.inr (Or.inl ⟨by simpa using hbefore.symm, hrest.1⟩)
    | cons z between =>
        simp only [List.cons_append, List.cons.injEq] at hrest
        exact Or.inr (Or.inr ⟨between, by rw [hbefore, hrest.1]⟩)
  · cases rest with
    | nil =>
        simp only [List.nil_append, List.cons.injEq] at hrest
        exact Or.inr (Or.inl ⟨by simpa using hbefore, hrest.1.symm⟩)
    | cons z between =>
        simp only [List.cons_append, List.cons.injEq] at hrest
        exact Or.inl ⟨between, by rw [hbefore, hrest.1]⟩

/-- A comprehension returns what its members return, if all do. -/
theorem mapM_of_all {β : Type} {f : α → Except Exc β} {g : α → β} {xs : List α}
    (h : ∀ x ∈ xs, f x = .ok (g x)) : xs.mapM f = .ok (xs.map g) := by
  rw [Coding.mapM_eq_ok, List.forall₂_map_right_iff, List.forall₂_same]
  exact h

/-- A comprehension raises what the first member to raise does. -/
theorem mapM_of_first {β : Type} {f : α → Except Exc β} {g : α → β} {before after : List α}
    {x : α} {e : Exc} (h : ∀ y ∈ before, f y = .ok (g y)) (hx : f x = .error e) :
    (before ++ x :: after).mapM f = .error e := by
  rw [List.mapM_append, mapM_of_all h, List.mapM_cons, hx]
  rfl

end

/-! ## One entry -/

section

variable (py : Interpreter)

theorem getKey_keepKnown {known : List String} {name : String} (h : name ∈ known)
    (items : List (Scalar × Value)) : getKey name (keepKnown known items) = getKey name items := by
  rw [getKey, getKey, keepKnown, List.find?_filter]
  congr 2
  funext item
  by_cases hname : item.1 = .str name
  · simp [hname, h]
  · simp [hname]

theorem jobFromDict_dict (items : List (Scalar × Value)) :
    jobFromDict py (.dict items) =
      if (getKey "id" items).isNone || (getKey "command" items).isNone then
        .error (valueError ("job entry missing required 'id' and/or 'command': " ++
          py.valueRepr (.dict items)))
      else .ok (entryRecord (.dict items)) := by
  have hknown : ∀ field : JobField,
      getKey field.name (keepKnown (JobField.all.map JobField.name) items) =
        getKey field.name items := fun field =>
    getKey_keepKnown (List.mem_map_of_mem (JobField.mem_all field)) items
  have hid : getKey "id" (keepKnown (JobField.all.map JobField.name) items) =
      getKey "id" items := hknown .id
  have hcommand : getKey "command" (keepKnown (JobField.all.map JobField.name) items) =
      getKey "command" items := hknown .command
  simp only [jobFromDict, Value.items, pure_bind, hid, hcommand, hknown]
  split <;> rfl

theorem jobFromDict_documented {entry : Value} (h : JobDocumented entry) :
    jobFromDict py entry = .ok (entryRecord entry) := by
  obtain ⟨items, rfl, hid, hcommand⟩ := h
  have hkeys : ((getKey "id" items).isNone || (getKey "command" items).isNone) = false := by
    rw [Option.isNone_eq_false_iff.mpr hid, Option.isNone_eq_false_iff.mpr hcommand]
    rfl
  rw [jobFromDict_dict, hkeys]
  rfl

/-- A mapping without the two keys is refused. -/
theorem jobFromDict_incomplete {items : List (Scalar × Value)} (h : ¬ JobDocumented (.dict items)) :
    ∃ e, jobFromDict py (.dict items) = .error e ∧ e.cls = .valueError := by
  rw [jobFromDict_dict, if_pos]
  · exact ⟨_, rfl, rfl⟩
  · by_contra hkeys
    rw [Bool.or_eq_true, not_or, Bool.not_eq_true, Bool.not_eq_true,
      Option.isNone_eq_false_iff, Option.isNone_eq_false_iff] at hkeys
    exact h ⟨items, rfl, hkeys.1, hkeys.2⟩

/-- An entry that is not a mapping is asked for its items. -/
theorem jobFromDict_of_not_dict {entry : Value} (h : ¬ ∃ items, entry = .dict items) :
    ∃ e, jobFromDict py entry = .error e ∧ e.cls = .attributeError := by
  cases entry with
  | leaf a => exact ⟨_, rfl, rfl⟩
  | list xs => exact ⟨_, rfl, rfl⟩
  | dict items => exact absurd ⟨items, rfl⟩ h

/-! ## The ids -/

/-- Ids that are scalars, no two equal. -/
structure Fresh (entries : List Value) : Prop where
  scalars : ∀ entry ∈ entries, ∃ a, entryId entry = .leaf a
  ids : entries.Pairwise fun a b => ¬ Value.Equal (entryId a) (entryId b)

/-- What the set holds after some entries. -/
def seenIds (entries : List Value) : List Scalar :=
  entries.reverse.filterMap fun entry =>
    match entryId entry with
    | .leaf a => some a.canonical
    | _ => none

theorem mem_seenIds {entries : List Value} {c : Scalar} :
    c ∈ seenIds entries ↔ ∃ entry ∈ entries, ∃ a, entryId entry = .leaf a ∧ a.canonical = c := by
  rw [seenIds, List.mem_filterMap]
  constructor
  · rintro ⟨entry, hentry, hid⟩
    refine ⟨entry, List.mem_reverse.mp hentry, ?_⟩
    split at hid
    · exact ⟨_, by assumption, Option.some.inj hid⟩
    · cases hid
  · rintro ⟨entry, hentry, a, hid, hc⟩
    exact ⟨entry, List.mem_reverse.mpr hentry, by rw [hid, ← hc]⟩

/-- Entries that are not refused leave their ids in the set. -/
theorem validate_append {before : List Value} (rest : List Value) (h : Fresh before) :
    validateUniqueIdsFrom py [] ((before ++ rest).map entryRecord) =
      validateUniqueIdsFrom py (seenIds before) (rest.map entryRecord) := by
  induction before using List.reverseRecOn generalizing rest with
  | nil => rfl
  | append_singleton before entry ih =>
      have hids := List.pairwise_append.mp h.ids
      have hbefore : Fresh before :=
        ⟨fun earlier hearlier => h.scalars earlier (List.mem_append_left _ hearlier), hids.1⟩
      obtain ⟨a, ha⟩ := h.scalars entry (List.mem_append_right _ (List.mem_singleton_self _))
      have hnew : a.canonical ∉ seenIds before := by
        intro hmem
        obtain ⟨earlier, hearlier, b, hb, heq⟩ := mem_seenIds.mp hmem
        apply hids.2.2 earlier hearlier entry (List.mem_singleton_self _)
        rw [ha, hb, Value.equal_leaf]
        exact heq
      have hseen : seenIds (before ++ [entry]) = a.canonical :: seenIds before := by
        simp [seenIds, ha]
      have hrecord : (entryRecord entry).get .id = .leaf a := ha
      rw [List.append_assoc, ih _ hbefore, List.singleton_append, List.map_cons,
        validateUniqueIdsFrom, hrecord, hseen]
      simp only [Value.hashable, pure_bind]
      rw [if_neg (by simpa using hnew)]

/-! ## The entries -/

/-- `load_queue` from the entries on, without the config. -/
def loadEntries (entries : List Value) : Except Exc (List JobRecord) := do
  let jobs ← entries.mapM (jobFromDict py)
  validateUniqueIds py jobs
  pure jobs

theorem loadEntries_of_documented {entries : List Value}
    (h : ∀ entry ∈ entries, JobDocumented entry) :
    loadEntries py entries =
      (validateUniqueIds py (entries.map entryRecord) >>= fun _ => pure (entries.map entryRecord)) := by
  rw [loadEntries, mapM_of_all fun entry hentry => jobFromDict_documented py (h entry hentry)]
  rfl

/-- What becomes of the entries. -/
inductive EntriesOutcome (entries : List Value) : Except Exc (List JobRecord) → Prop
  | accepted (hform : EntriesDocumented entries) (hreadable : EntriesReadable entries) :
      EntriesOutcome entries (.ok (entries.map entryRecord))
  | refused {e : Exc} (hform : ¬ EntriesDocumented entries) (hreadable : EntriesReadable entries)
      (he : e.cls = .valueError) : EntriesOutcome entries (.error e)
  | escapes {e : Exc} (hreadable : ¬ EntriesReadable entries) (he : e.cls ≠ .valueError) :
      EntriesOutcome entries (.error e)

/-- The first entry without the two keys ends the comprehension. -/
theorem outcome_of_undocumented {before after : List Value} {entry : Value}
    (hbefore : ∀ earlier ∈ before, JobDocumented earlier) (hentry : ¬ JobDocumented entry) :
    EntriesOutcome (before ++ entry :: after) (loadEntries py (before ++ entry :: after)) := by
  have hmem : entry ∈ before ++ entry :: after := by simp
  have hraises : ∀ e, jobFromDict py entry = .error e →
      loadEntries py (before ++ entry :: after) = .error e := by
    intro e he
    rw [loadEntries, mapM_of_first
      (fun earlier hearlier => jobFromDict_documented py (hbefore earlier hearlier)) he]
    rfl
  by_cases hdict : ∃ items, entry = .dict items
  · obtain ⟨items, rfl⟩ := hdict
    obtain ⟨e, he, hcls⟩ := jobFromDict_incomplete py hentry
    rw [hraises e he]
    refine .refused (fun hform => hentry (hform.jobs _ hmem)) ⟨?_, ?_⟩ hcls
    · intro before' entry' after' hsplit hbefore'
      rcases places hsplit with ⟨between, rfl⟩ | ⟨-, heq⟩ | ⟨between, rfl⟩
      · obtain ⟨items', hitems', -⟩ := hbefore entry' (by simp)
        exact ⟨items', hitems'⟩
      · exact ⟨items, heq.symm⟩
      · exact absurd (hbefore' _ (by simp)) hentry
    · exact fun hall => absurd (hall _ hmem) hentry
  · obtain ⟨e, he, hcls⟩ := jobFromDict_of_not_dict py hdict
    rw [hraises e he]
    refine .escapes (fun hreadable => hdict (hreadable.mappings before entry after rfl hbefore)) ?_
    rw [hcls]
    decide

/-- The first id that is not new ends the loop over the ids. -/
theorem outcome_of_not_fresh {before after : List Value} {entry : Value}
    (hjobs : ∀ earlier ∈ before ++ entry :: after, JobDocumented earlier) (hbefore : Fresh before)
    (hentry : ¬ Fresh (before ++ [entry])) :
    EntriesOutcome (before ++ entry :: after) (loadEntries py (before ++ entry :: after)) := by
  have hraises : ∀ e, validateUniqueIdsFrom py (seenIds before)
        ((entry :: after).map entryRecord) = .error e →
      loadEntries py (before ++ entry :: after) = .error e := by
    intro e he
    rw [loadEntries_of_documented py hjobs, validateUniqueIds, validate_append py _ hbefore, he]
    rfl
  have hescapes : (¬ ∃ a, entryId entry = .leaf a) → ¬ EntriesReadable (before ++ entry :: after) :=
    fun hid hreadable => hid (hreadable.scalars hjobs before entry after rfl hbefore.ids)
  have hid : (entryRecord entry).get .id = entryId entry := rfl
  rw [List.map_cons, validateUniqueIdsFrom, hid] at hraises
  cases hvalue : entryId entry with
  | list xs =>
      rw [hvalue] at hraises hescapes
      rw [hraises _ rfl]
      exact .escapes (hescapes nofun) nofun
  | dict items =>
      rw [hvalue] at hraises hescapes
      rw [hraises _ rfl]
      exact .escapes (hescapes nofun) nofun
  | leaf a =>
      -- The id is a scalar, so what is not new about it is that it occurred before.
      have hmem : a.canonical ∈ seenIds before := by
        by_contra hnew
        apply hentry
        refine ⟨?_, List.pairwise_append.mpr ⟨hbefore.ids, List.pairwise_singleton _ _, ?_⟩⟩
        · intro earlier hearlier
          rcases List.mem_append.mp hearlier with hearlier | hearlier
          · exact hbefore.scalars earlier hearlier
          · rw [List.mem_singleton.mp hearlier]
            exact ⟨a, hvalue⟩
        · intro earlier hearlier other hother hequal
          rw [List.mem_singleton.mp hother, hvalue] at hequal
          obtain ⟨b, hb⟩ := hbefore.scalars earlier hearlier
          rw [hb, Value.equal_leaf] at hequal
          exact hnew (mem_seenIds.mpr ⟨earlier, hearlier, b, hb, hequal⟩)
      obtain ⟨earlier, hearlier, b, hb, heq⟩ := mem_seenIds.mp hmem
      have hequal : Value.Equal (entryId earlier) (entryId entry) := by
        rw [hb, hvalue, Value.equal_leaf]
        exact heq
      have hduplicate : ∀ before', (∃ between, before' = before ++ entry :: between) →
          ¬ before'.Pairwise fun a b => ¬ Value.Equal (entryId a) (entryId b) := by
        rintro before' ⟨between, rfl⟩ hids
        exact (List.pairwise_append.mp hids).2.2 earlier hearlier entry (by simp) hequal
      have hset : (seenIds before).contains a.canonical = true := by
        simpa using hmem
      rw [hvalue] at hraises
      simp only [Value.hashable, pure_bind, hset, if_true] at hraises
      rw [hraises _ rfl]
      refine .refused (fun hform => hduplicate _ ⟨after, rfl⟩ hform.ids) ⟨?_, ?_⟩ rfl
      · intro before' entry' after' hsplit _
        obtain ⟨items, hitems, -⟩ := hjobs entry' (by rw [hsplit]; simp)
        exact ⟨items, hitems⟩
      · intro _ before' entry' after' hsplit hids
        rcases places hsplit with ⟨between, rfl⟩ | ⟨-, rfl⟩ | hlater
        · exact hbefore.scalars entry' (by simp)
        · exact ⟨a, hvalue⟩
        · exact absurd hids (hduplicate _ hlater)

/-- What becomes of the entries is one of three things. -/
theorem loadEntries_outcome (entries : List Value) :
    EntriesOutcome entries (loadEntries py entries) := by
  rcases all_or_first (fun es => ∀ e ∈ es, JobDocumented e) nofun entries with
    hjobs | ⟨before, entry, after, rfl, hbefore, hlost⟩
  · rcases all_or_first Fresh ⟨nofun, .nil⟩ entries with
      hfresh | ⟨before, entry, after, rfl, hbefore, hlost⟩
    · have hloaded : loadEntries py entries = .ok (entries.map entryRecord) := by
        have hvalid := validate_append py [] hfresh
        rw [List.append_nil] at hvalid
        rw [loadEntries_of_documented py hjobs, validateUniqueIds, hvalid]
        rfl
      rw [hloaded]
      refine .accepted ⟨hjobs, hfresh.ids⟩ ⟨?_, ?_⟩
      · intro before entry after hsplit _
        obtain ⟨items, hitems, -⟩ := hjobs entry (by rw [hsplit]; simp)
        exact ⟨items, hitems⟩
      · intro _ before entry after hsplit _
        exact hfresh.scalars entry (by rw [hsplit]; simp)
    · exact outcome_of_not_fresh py hjobs hbefore hlost
  · refine outcome_of_undocumented py hbefore fun hentry => hlost ?_
    intro earlier hearlier
    rcases List.mem_append.mp hearlier with hearlier | hearlier
    · exact hbefore earlier hearlier
    · rw [List.mem_singleton.mp hearlier]
      exact hentry

end

/-! ## The global block -/

theorem nonpositive_of_comparable {v : Value} (h : Comparable v) :
    ∃ b, v.nonpositive = .ok b := by
  cases h with
  | bool b => exact ⟨_, rfl⟩
  | number h =>
      cases h with
      | int n => exact ⟨_, rfl⟩
      | float x => cases x <;> exact ⟨_, rfl⟩

theorem nonpositive_of_not_comparable {v : Value} (h : ¬ Comparable v) :
    ∃ e, v.nonpositive = .error e ∧ e.cls = .typeError := by
  cases v with
  | list xs => exact ⟨_, rfl, rfl⟩
  | dict items => exact ⟨_, rfl, rfl⟩
  | leaf a =>
      cases a with
      | bool b => exact absurd (.bool b) h
      | int n => exact absurd (.number (.int n)) h
      | float x => exact absurd (.number (.float x)) h
      | _ => exact ⟨_, rfl, rfl⟩

section

variable (host : HostSize)

theorem postInit_of_comparable {config : ConfigRecord} (hcores : Comparable (config.get .coreBudget))
    (hram : Comparable (config.get .ramBudgetGb)) : ∃ config', config.postInit host = .ok config' := by
  obtain ⟨b, hb⟩ := nonpositive_of_comparable hcores
  obtain ⟨c, hc⟩ := nonpositive_of_comparable hram
  rw [ConfigRecord.postInit, hb, hc]
  cases b <;> cases c <;> exact ⟨_, rfl⟩

theorem postInit_of_not_comparable {config : ConfigRecord}
    (h : ¬ (Comparable (config.get .coreBudget) ∧ Comparable (config.get .ramBudgetGb))) :
    ∃ e, config.postInit host = .error e ∧ e.cls = .typeError := by
  by_cases hcores : Comparable (config.get .coreBudget)
  · obtain ⟨b, hb⟩ := nonpositive_of_comparable hcores
    obtain ⟨e, he, hcls⟩ := nonpositive_of_not_comparable fun hram => h ⟨hcores, hram⟩
    rw [ConfigRecord.postInit, hb, he]
    cases b <;> exact ⟨e, rfl, hcls⟩
  · obtain ⟨e, he, hcls⟩ := nonpositive_of_not_comparable hcores
    rw [ConfigRecord.postInit, he]
    exact ⟨e, rfl, hcls⟩

/-- The config of a mapping before its budgets are looked at. -/
def configRecord (items : List (Scalar × Value)) : ConfigRecord where
  get field := (getKey field.name items).getD field.default

theorem configFromGlobal_dict (items : List (Scalar × Value)) :
    configFromGlobal host (some (.dict items)) = (configRecord items).postInit host := by
  have hknown : ∀ field : ConfigField,
      getKey field.name (keepKnown (ConfigField.all.map ConfigField.name) items) =
        getKey field.name items := by
    intro field
    apply getKey_keepKnown
    cases field <;> decide
  have hrecord : (⟨fun field => (getKey field.name
      (keepKnown (ConfigField.all.map ConfigField.name) items)).getD field.default⟩ : ConfigRecord) =
        configRecord items :=
    congrArg ConfigRecord.mk (funext fun field => by rw [hknown])
  cases items with
  | nil => rfl
  | cons item rest =>
      rw [← hrecord]
      rfl

/-- A block that is not true counts as an empty one. -/
theorem configFromGlobal_of_not_truthy {v : Value} (h : v.truthy = false) :
    configFromGlobal host (some v) = (configRecord []).postInit host := by
  rw [configFromGlobal]
  simp only [Option.getD_some, h]
  rfl

theorem postInit_configRecord_nil : ∃ config, (configRecord []).postInit host = .ok config :=
  postInit_of_comparable host (.number (.int 0)) (.number (.float _))

/-- The budgets of a mapping can be compared, given or not. -/
theorem comparable_configRecord {items : List (Scalar × Value)} :
    (Comparable ((configRecord items).get .coreBudget) ∧
        Comparable ((configRecord items).get .ramBudgetGb)) ↔
      (∀ budget, getKey "core_budget" items = some budget → Comparable budget) ∧
        (∀ budget, getKey "ram_budget_gb" items = some budget → Comparable budget) := by
  have hfield : ∀ (name : String) (default : Value), Comparable default →
      (Comparable ((getKey name items).getD default) ↔
        ∀ budget, getKey name items = some budget → Comparable budget) := by
    intro name default hdefault
    cases getKey name items with
    | none => exact ⟨fun _ => nofun, fun _ => hdefault⟩
    | some v => exact ⟨fun h _ hv => Option.some.inj hv ▸ h, fun h => h v rfl⟩
  exact and_congr (hfield _ _ (.number (.int 0))) (hfield _ _ (.number (.float _)))

theorem configFromGlobal_of_readable {block : Option Value} (h : GlobalReadable block) :
    ∃ config, configFromGlobal host block = .ok config := by
  cases block with
  | none => exact postInit_configRecord_nil host
  | some v =>
      cases htruthy : v.truthy with
      | false =>
          rw [configFromGlobal_of_not_truthy host htruthy]
          exact postInit_configRecord_nil host
      | true =>
          obtain ⟨items, rfl, hbudgets⟩ := h v rfl htruthy
          obtain ⟨hcores, hram⟩ := comparable_configRecord.mpr hbudgets
          rw [configFromGlobal_dict]
          exact postInit_of_comparable host hcores hram

theorem configFromGlobal_of_not_readable {block : Option Value} (h : ¬ GlobalReadable block) :
    ∃ e, configFromGlobal host block = .error e ∧ e.cls ≠ .valueError := by
  rw [GlobalReadable] at h
  push Not at h
  obtain ⟨v, rfl, htruthy, hv⟩ := h
  have hitems : configFromGlobal host (some v) = (v.items >>= fun items =>
      ConfigRecord.postInit host ⟨fun field => (getKey field.name
        (keepKnown (ConfigField.all.map ConfigField.name) items)).getD field.default⟩) := by
    rw [configFromGlobal]
    simp only [Option.getD_some, htruthy, if_true]
  cases v with
  | leaf a =>
      rw [hitems]
      exact ⟨_, rfl, nofun⟩
  | list xs =>
      rw [hitems]
      exact ⟨_, rfl, nofun⟩
  | dict items =>
      have hbudgets := comparable_configRecord.not.mpr fun hb => by
        obtain ⟨budget, hbudget, hnot⟩ := hv items rfl hb.1
        exact hnot (hb.2 budget hbudget)
      obtain ⟨e, he, hcls⟩ := postInit_of_not_comparable host hbudgets
      rw [configFromGlobal_dict]
      exact ⟨e, he, by rw [hcls]; decide⟩

end

/-! ## The document -/

theorem documented_list {entries listed : List Value} :
    Documented (.list listed) entries ↔ entries = listed ∧ EntriesDocumented listed := by
  constructor
  · intro h
    cases h with
    | list hentries => exact ⟨rfl, hentries⟩
  · intro h
    rw [h.1]
    exact .list h.2

section

variable (py : Interpreter) (host : HostSize)

/-- A document that is not true is an empty queue. -/
theorem loadQueue_of_not_truthy {doc : Value} (h : doc.truthy = false) :
    ∃ config, loadQueue py host doc = .ok (config, []) := by
  obtain ⟨config, hconfig⟩ := postInit_configRecord_nil host
  have hglobal : configFromGlobal host (getKey "global" []) = .ok config := hconfig
  refine ⟨config, ?_⟩
  rw [loadQueue]
  simp only [h, Bool.false_eq_true, if_false, hglobal]
  rfl

theorem loadQueue_list (entries : List Value) :
    ∃ config, loadQueue py host (.list entries) =
      (loadEntries py entries >>= fun jobs => pure (config, jobs)) := by
  obtain ⟨config, hconfig⟩ := postInit_configRecord_nil host
  have hglobal : configFromGlobal host none = .ok config := hconfig
  refine ⟨config, ?_⟩
  cases entries with
  | nil =>
      have hempty : configFromGlobal host (getKey "global" []) = .ok config := hconfig
      rw [loadQueue]
      simp only [Value.truthy, List.isEmpty_nil, Bool.not_true, Bool.false_eq_true, if_false, hempty]
      rfl
  | cons entry rest =>
      rw [loadQueue]
      simp only [Value.truthy, List.isEmpty_cons, Bool.not_false, if_true, hglobal, loadEntries,
        bind_assoc, pure_bind]
      rfl

/-- A mapping whose jobs are a list. -/
theorem loadQueue_dict {items : List (Scalar × Value)} {entries : List Value}
    (h : (getKey "jobs" items).getD (.list []) = .list entries) :
    loadQueue py host (.dict items) = (configFromGlobal host (getKey "global" items) >>= fun config =>
      loadEntries py entries >>= fun jobs => pure (config, jobs)) := by
  cases items with
  | nil =>
      cases h
      rfl
  | cons item rest =>
      rw [loadQueue]
      simp only [Value.truthy, List.isEmpty_cons, Bool.not_false, if_true, h, loadEntries,
        bind_assoc, pure_bind]

/-- A mapping whose jobs are not a list. -/
theorem loadQueue_dict_of_not_list {items : List (Scalar × Value)}
    (h : ∀ entries, (getKey "jobs" items).getD (.list []) ≠ .list entries) :
    loadQueue py host (.dict items) =
      (configFromGlobal host (getKey "global" items) >>= fun _ =>
        throw (valueError "'jobs' must be a list")) := by
  cases items with
  | nil => exact absurd rfl (h [])
  | cons item rest =>
      rw [loadQueue]
      simp only [Value.truthy, List.isEmpty_cons, Bool.not_false, if_true]
      cases hjobs : (getKey "jobs" (item :: rest)).getD (.list []) with
      | list entries => exact absurd hjobs (h entries)
      | leaf a =>
          cases configFromGlobal host (getKey "global" (item :: rest)) <;> rfl
      | dict jobs =>
          cases configFromGlobal host (getKey "global" (item :: rest)) <;> rfl

/-! ## The contract -/

variable {py host}

theorem QueueContract.of_documented {doc : Value} {entries : List Value} {config : ConfigRecord}
    (hform : ∀ listed, Documented doc listed ↔ listed = entries)
    (h : loadQueue py host doc = .ok (config, entries.map entryRecord)) :
    QueueContract py host doc where
  accepts listed hlisted := by
    rw [(hform listed).mp hlisted]
    exact ⟨config, h⟩
  refuses hnone := absurd ⟨entries, (hform entries).mpr rfl⟩ hnone

theorem QueueContract.of_refused {doc : Value} {e : Exc} (hform : ∀ listed, ¬ Documented doc listed)
    (h : loadQueue py host doc = .error e) (he : e.cls = .valueError) :
    QueueContract py host doc where
  accepts listed hlisted := absurd hlisted (hform listed)
  refuses _ := ⟨e, h, he⟩

/-- Another exception breaks the contract, whatever the document. -/
theorem QueueContract.not_of_escape {doc : Value} {e : Exc} (h : loadQueue py host doc = .error e)
    (he : e.cls ≠ .valueError) : ¬ QueueContract py host doc := by
  intro hcontract
  by_cases hform : ∃ listed, Documented doc listed
  · obtain ⟨listed, hlisted⟩ := hform
    obtain ⟨config, hloaded⟩ := hcontract.accepts listed hlisted
    rw [h] at hloaded
    cases hloaded
  · obtain ⟨e', hraised, hcls⟩ := hcontract.refuses hform
    rw [h, Except.error.injEq] at hraised
    exact he (hraised ▸ hcls)

/-- So does loading what is not of the form. -/
theorem QueueContract.not_of_loaded {doc : Value} {result : ConfigRecord × List JobRecord}
    (hform : ∀ listed, ¬ Documented doc listed) (h : loadQueue py host doc = .ok result) :
    ¬ QueueContract py host doc := by
  intro hcontract
  obtain ⟨e, hraised, -⟩ := hcontract.refuses fun ⟨listed, hlisted⟩ => hform listed hlisted
  rw [h] at hraised
  cases hraised

variable (py host)

theorem leaf_contract_iff (a : Scalar) :
    QueueContract py host (.leaf a) ↔ Checked (.leaf a) := by
  cases htruthy : a.truthy with
  | true =>
      have hform : ∀ listed, ¬ Documented (.leaf a) listed := by
        intro listed hlisted
        cases hlisted with
        | empty => cases htruthy
      have hraised : loadQueue py host (.leaf a) =
          .error (valueError ("queue must be a mapping or a list, got " ++ a.typeName)) := by
        rw [loadQueue]
        simp only [Value.truthy, htruthy, if_true]
        rfl
      exact iff_of_true (.of_refused hform hraised rfl) (.scalar htruthy)
  | false =>
      obtain ⟨config, hloaded⟩ := @loadQueue_of_not_truthy py host (.leaf a) htruthy
      by_cases hnone : a = .none
      · rw [hnone] at hloaded ⊢
        have hempty : loadQueue py host (.leaf .none) =
            .ok (config, ([] : List Value).map entryRecord) := hloaded
        refine iff_of_true (.of_documented (fun listed => ?_) hempty) .null
        constructor
        · intro hlisted
          cases hlisted with
          | empty => rfl
        · intro hlisted
          rw [hlisted]
          exact .empty
      · refine iff_of_false (QueueContract.not_of_loaded (fun listed hlisted => ?_) hloaded) ?_
        · cases hlisted with
          | empty => exact hnone rfl
        · intro hchecked
          cases hchecked with
          | null => exact hnone rfl
          | scalar h => exact absurd (htruthy.symm.trans h) (by decide)

theorem list_contract_iff (entries : List Value) :
    QueueContract py host (.list entries) ↔ Checked (.list entries) := by
  obtain ⟨config, hqueue⟩ := loadQueue_list py host entries
  have houtcome := loadEntries_outcome py entries
  cases hentries : loadEntries py entries with
  | ok jobs =>
      rw [hentries] at hqueue houtcome
      cases houtcome with
      | accepted hform hreadable =>
          refine iff_of_true (.of_documented (fun listed => ?_) hqueue) (.list hreadable)
          rw [documented_list, and_iff_left hform]
  | error e =>
      rw [hentries] at hqueue houtcome
      cases houtcome with
      | refused hform hreadable he =>
          refine iff_of_true (.of_refused (fun listed hlisted => ?_) hqueue he) (.list hreadable)
          exact hform (documented_list.mp hlisted).2
      | escapes hreadable he =>
          refine iff_of_false (QueueContract.not_of_escape hqueue he) fun hchecked => ?_
          cases hchecked with
          | list h => exact hreadable h

theorem dict_contract_iff (items : List (Scalar × Value)) :
    QueueContract py host (.dict items) ↔ Checked (.dict items) := by
  by_cases hglobal : GlobalReadable (getKey "global" items)
  swap
  · obtain ⟨e, hraised, he⟩ := configFromGlobal_of_not_readable host hglobal
    have hescapes : loadQueue py host (.dict items) = .error e := by
      by_cases hlist : ∃ entries, (getKey "jobs" items).getD (.list []) = .list entries
      · obtain ⟨entries, hjobs⟩ := hlist
        rw [loadQueue_dict py host hjobs, hraised]
        rfl
      · rw [loadQueue_dict_of_not_list py host fun entries hjobs => hlist ⟨entries, hjobs⟩, hraised]
        rfl
    refine iff_of_false (QueueContract.not_of_escape hescapes he) fun hchecked => ?_
    cases hchecked with
    | mapping h _ => exact hglobal h
  obtain ⟨config, hconfig⟩ := configFromGlobal_of_readable host hglobal
  by_cases hlist : ∃ entries, (getKey "jobs" items).getD (.list []) = .list entries
  swap
  · have hnot : ∀ entries, (getKey "jobs" items).getD (.list []) ≠ .list entries :=
      fun entries hjobs => hlist ⟨entries, hjobs⟩
    have hqueue := loadQueue_dict_of_not_list py host hnot
    rw [hconfig] at hqueue
    refine iff_of_true (.of_refused (fun listed hlisted => ?_) hqueue rfl)
      (.mapping hglobal fun entries hjobs => absurd hjobs (hnot entries))
    cases hlisted with
    | mapping _ hjobs _ => exact hnot _ hjobs
  obtain ⟨entries, hjobs⟩ := hlist
  have hform : ∀ listed, Documented (.dict items) listed ↔ listed = entries ∧
      GlobalDocumented (getKey "global" items) ∧ EntriesDocumented entries := by
    intro listed
    constructor
    · intro hlisted
      cases hlisted with
      | mapping hdocumented hjobs' hentries =>
          rw [hjobs, Tree.list.injEq] at hjobs'
          exact ⟨hjobs'.symm, hdocumented, hjobs' ▸ hentries⟩
    · rintro ⟨rfl, hdocumented, hentries⟩
      exact .mapping hdocumented hjobs hentries
  have hqueue := loadQueue_dict py host hjobs
  rw [hconfig] at hqueue
  have houtcome := loadEntries_outcome py entries
  have hchecked : Checked (.dict items) ↔ EntriesReadable entries ∧
      (EntriesDocumented entries → GlobalDocumented (getKey "global" items)) := by
    constructor
    · intro h
      cases h with
      | mapping _ hentries => exact hentries entries hjobs
    · intro h
      refine .mapping hglobal fun entries' hjobs' => ?_
      rw [hjobs, Tree.list.injEq] at hjobs'
      rw [← hjobs']
      exact h
  rw [hchecked]
  cases hentries : loadEntries py entries with
  | ok jobs =>
      rw [hentries] at hqueue houtcome
      cases houtcome with
      | accepted hentriesForm hreadable =>
          by_cases hdocumented : GlobalDocumented (getKey "global" items)
          · refine iff_of_true (.of_documented (fun listed => ?_) hqueue)
              ⟨hreadable, fun _ => hdocumented⟩
            rw [hform, and_iff_left ⟨hdocumented, hentriesForm⟩]
          · refine iff_of_false (QueueContract.not_of_loaded (fun listed hlisted => ?_) hqueue) ?_
            · exact hdocumented ((hform listed).mp hlisted).2.1
            · exact fun h => hdocumented (h.2 hentriesForm)
  | error e =>
      rw [hentries] at hqueue houtcome
      cases houtcome with
      | refused hentriesForm hreadable he =>
          refine iff_of_true (.of_refused (fun listed hlisted => ?_) hqueue he)
            ⟨hreadable, fun h => absurd h hentriesForm⟩
          exact hentriesForm ((hform listed).mp hlisted).2.2
      | escapes hreadable he =>
          exact iff_of_false (QueueContract.not_of_escape hqueue he) fun h => hreadable h.1

/-- Which documents are dealt with as documented. -/
theorem queue_contract_iff (doc : Value) : QueueContract py host doc ↔ Checked doc := by
  cases doc with
  | leaf a => exact leaf_contract_iff py host a
  | list entries => exact list_contract_iff py host entries
  | dict items => exact dict_contract_iff py host items

/-- An entry and a budget that are no mapping and no number, an id that is a list, and a
document that is `false`. -/
theorem queue_contract_fails :
    ¬ QueueContract ⟨fun _ => "", fun _ => ""⟩ ⟨64, 256⟩ (.list [.leaf (.str "x")]) ∧
    ¬ QueueContract ⟨fun _ => "", fun _ => ""⟩ ⟨64, 256⟩
      (.dict [(.str "global", .dict [(.str "core_budget", .leaf (.str "8"))])]) ∧
    ¬ QueueContract ⟨fun _ => "", fun _ => ""⟩ ⟨64, 256⟩
      (.list [.dict [(.str "id", .list []), (.str "command", .leaf (.str "true"))]]) ∧
    ¬ QueueContract ⟨fun _ => "", fun _ => ""⟩ ⟨64, 256⟩ (.leaf (.bool false)) := by
  rw [list_contract_iff, dict_contract_iff, list_contract_iff, leaf_contract_iff]
  refine ⟨?_, ?_, ?_, ?_⟩
  · intro h
    cases h with
    | list hreadable =>
        obtain ⟨items, hitems⟩ := hreadable.mappings [] _ [] rfl nofun
        cases hitems
  · intro h
    cases h with
    | mapping hglobal _ =>
        obtain ⟨items, hitems, hcores, -⟩ := hglobal _ rfl rfl
        cases hitems
        cases hcores _ rfl with
        | number hnumeric => cases hnumeric
  · intro h
    cases h with
    | list hreadable =>
        have hjob : ∀ entry ∈ ([.dict [(.str "id", .list []),
            (.str "command", .leaf (.str "true"))]] : List Value), JobDocumented entry := by
          intro entry hentry
          rw [List.mem_singleton.mp hentry]
          exact ⟨_, rfl, rfl, rfl⟩
        obtain ⟨a, ha⟩ := hreadable.scalars hjob [] _ [] rfl .nil
        cases ha
  · intro h
    cases h with
    | scalar h => cases h

end

end Nodepilot
