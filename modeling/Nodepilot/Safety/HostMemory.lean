import Nodepilot.Model.HostProbes
import Nodepilot.Safety.Ceilings
import Nodepilot.Safety.Numerals
import Nodepilot.Safety.QueueForm
import Nodepilot.Safety.Topology
import Nodepilot.Safety.Typing

/-!
# The memory of the host

The kernel writes its accounts of memory line by line: a label with a colon, a number
padded with blanks, and for most a unit.  What is read of them are the numbers that were
written (`firstGb_meminfo`, `nodeMemoryGb_meminfo`), whatever other lines there are.

Two things rest on that.  A queue file that sets no budgets is run with those of the host,
so that no run commits more CPUs or memory than it has (`unset_budgets`).  And the memory
gate of the allocator keeps a job off a node exactly when the node would be overcommitted
(`gated_allocation`).
-/

namespace Nodepilot

open Obeys

/-! ## What the kernel writes -/

/-- A line of an account. -/
structure MeminfoLine where
  label : String
  solid : ∀ c ∈ label.toList, Text.blank c = false ∧ c ≠ ':'
  /-- The blanks after the first one. -/
  padding : ℕ
  amount : ℕ
  hasUnit : Bool

namespace MeminfoLine

/-- The text, without its line end. -/
def text (line : MeminfoLine) : List Char :=
  (line.label.toList ++ [':']) ++ ' ' :: (List.replicate line.padding ' ' ++
    Nat.toDigits 10 line.amount ++ if line.hasUnit then " kB".toList else [])

end MeminfoLine

/-- A file of lines. -/
def linesText (lines : List (List Char)) : String :=
  String.ofList (lines.flatMap fun line => line ++ ['\n'])

/-- `/proc/meminfo`. -/
def meminfoText (lines : List MeminfoLine) : String :=
  linesText (lines.map MeminfoLine.text)

/-- A line of the account of a node. -/
def MeminfoLine.nodeText (node : ℕ) (line : MeminfoLine) : List Char :=
  "Node ".toList ++ (Nat.toDigits 10 node ++ ' ' :: line.text)

/-- The `meminfo` of a node. -/
def nodeMeminfoText (node : ℕ) (lines : List MeminfoLine) : String :=
  linesText (lines.map (MeminfoLine.nodeText node))

/-- The amount under a label. -/
def amountOf (lines : List MeminfoLine) (label : String) : Option ℕ :=
  (lines.find? fun line => line.label == label).map MeminfoLine.amount

theorem amountOf_cons (line : MeminfoLine) (rest : List MeminfoLine) (label : String) :
    amountOf (line :: rest) label =
      if line.label = label then some line.amount else amountOf rest label := by
  unfold amountOf
  by_cases heq : line.label = label
  · rw [if_pos heq, List.find?_cons, beq_iff_eq.mpr heq]
    rfl
  · rw [if_neg heq, List.find?_cons, beq_eq_false_iff_ne.mpr heq]

/-! ## The words of a line -/

section Lines

variable (line : MeminfoLine)

theorem blank_of_mem_toDigits {n : ℕ} {c : Char} (h : c ∈ Nat.toDigits 10 n) :
    Text.blank c = false :=
  Text.blank_of_isDigit (Text.isDigit_of_mem_toDigits h)

theorem words_toDigits (n : ℕ) : Text.words (Nat.toDigits 10 n) = [Nat.toDigits 10 n] :=
  Text.words_of_solid Nat.toDigits_ne_nil fun _ hc => blank_of_mem_toDigits hc

theorem words_replicate_append (n : ℕ) (text : List Char) :
    Text.words (List.replicate n ' ' ++ text) = Text.words text := by
  induction n with
  | zero => rfl
  | succ n ih =>
      have hblank := Text.words_append_blank (c := ' ') (by decide) [] (List.replicate n ' ' ++ text)
      rw [List.replicate_succ, List.cons_append]
      rw [List.nil_append] at hblank
      rw [hblank, ih]
      rfl

theorem blank_of_mem_key {c : Char} (h : c ∈ line.label.toList ++ [':']) : Text.blank c = false := by
  rcases List.mem_append.mp h with hlabel | hcolon
  · exact (line.solid c hlabel).1
  · rw [List.mem_singleton.mp hcolon]
    decide

/-- A line has its label, its number and perhaps its unit for words. -/
theorem words_text : ∃ unit, Text.words line.text =
    (line.label.toList ++ [':']) :: Nat.toDigits 10 line.amount :: unit := by
  have hkey : Text.words (line.label.toList ++ [':']) = [line.label.toList ++ [':']] :=
    Text.words_of_solid (by simp) fun c hc => blank_of_mem_key line hc
  rw [MeminfoLine.text, Text.words_append_blank (by decide), hkey, List.append_assoc,
    words_replicate_append]
  cases line.hasUnit with
  | false =>
      refine ⟨[], ?_⟩
      simp [words_toDigits]
  | true =>
      refine ⟨[['k', 'B']], ?_⟩
      have hunit := Text.words_append_blank (c := ' ') (by decide) (Nat.toDigits 10 line.amount)
        ['k', 'B']
      show [_] ++ Text.words (Nat.toDigits 10 line.amount ++ ' ' :: ['k', 'B']) = _
      rw [hunit, words_toDigits]
      rfl

theorem newline_notMem_text : '\n' ∉ line.text := by
  have hsolid : ∀ {text : List Char}, (∀ c ∈ text, Text.blank c = false) → '\n' ∉ text :=
    fun h hmem => absurd (h _ hmem) (by decide)
  have hspaces : '\n' ∉ List.replicate line.padding ' ' := fun hmem =>
    absurd (List.eq_of_mem_replicate hmem) (by decide)
  have hunit : '\n' ∉ if line.hasUnit then " kB".toList else [] := by
    split <;> decide
  simp only [MeminfoLine.text, List.mem_append, List.mem_cons, not_or]
  exact ⟨⟨fun hmem => hsolid (fun c hc => (line.solid c hc).1) hmem, by decide, by simp⟩, by decide,
    ⟨hspaces, hsolid fun _ hc => blank_of_mem_toDigits hc⟩, hunit⟩

/-- A label with its colon starts the lines of that label and no others. -/
theorem isPrefixOf_text {label : String} (hlabel : ':' ∉ label.toList) :
    (label.toList ++ [':']).isPrefixOf line.text = (line.label == label) := by
  have hfront : ∀ {text later : List Char}, ':' ∉ text →
      (text ++ [':'] ++ later).takeWhile (· != ':') = text := by
    intro text later htext
    have hkeep : ∀ c ∈ text, (c != ':') = true := fun c hc =>
      bne_iff_ne.mpr fun heq => htext (heq ▸ hc)
    rw [List.append_assoc, List.takeWhile_append_of_pos hkeep]
    simp
  rw [Bool.eq_iff_iff, List.isPrefixOf_iff_prefix, beq_iff_eq]
  constructor
  · rintro ⟨rest, hrest⟩
    have hlabels := congrArg (List.takeWhile (· != ':')) hrest
    rw [hfront hlabel, MeminfoLine.text, hfront fun hmem => (line.solid _ hmem).2 rfl] at hlabels
    exact String.toList_injective hlabels.symm
  · rintro rfl
    exact ⟨_, rfl⟩

theorem newline_notMem_nodeText (node : ℕ) : '\n' ∉ line.nodeText node := by
  have hdigits : '\n' ∉ Nat.toDigits 10 node := fun hmem =>
    absurd (blank_of_mem_toDigits hmem) (by decide)
  simp only [MeminfoLine.nodeText, List.mem_append, List.mem_cons, not_or]
  exact ⟨by decide, hdigits, by decide, newline_notMem_text line⟩

theorem words_nodeText (node : ℕ) : ∃ unit, Text.words (line.nodeText node) =
    "Node".toList :: Nat.toDigits 10 node :: (line.label.toList ++ [':']) ::
      Nat.toDigits 10 line.amount :: unit := by
  obtain ⟨unit, hunit⟩ := words_text line
  refine ⟨unit, ?_⟩
  have hnode : line.nodeText node =
      "Node".toList ++ ' ' :: (Nat.toDigits 10 node ++ ' ' :: line.text) := rfl
  rw [hnode, Text.words_append_blank (by decide), Text.words_append_blank (by decide),
    words_toDigits, hunit]
  rfl

end Lines

/-! ## What is read -/

theorem lines_of_linesText {lines : List (List Char)} (h : ∀ line ∈ lines, '\n' ∉ line) :
    (linesText lines).toList.splitOn '\n' = lines ++ [[]] := by
  have hsplit := splitOn_lines h []
  rw [List.append_nil] at hsplit
  rw [linesText, String.toList_ofList, hsplit]
  rfl

theorem pyInt_toDigits (n : ℕ) : pyInt (Nat.toDigits 10 n) = .ok (n : ℤ) := by
  rw [pyInt, Text.parseInt_toDigits]

theorem firstGb_lines {label : String} (hlabel : ':' ∉ label.toList) (lines : List MeminfoLine) :
    firstGb (label ++ ":") (lines.map MeminfoLine.text ++ [[]]) =
      .ok ((amountOf lines label).map fun kb : ℕ => (kb : ℚ) / (1024 * 1024)) := by
  have hkey : (label ++ ":").toList = label.toList ++ [':'] := String.toList_append
  induction lines with
  | nil =>
      have hempty : (label.toList ++ [':']).isPrefixOf [] = false := by
        cases label.toList <;> rfl
      rw [List.map_nil, List.nil_append, firstGb, hkey, hempty]
      rfl
  | cons line rest ih =>
      rw [List.map_cons, List.cons_append, firstGb, hkey, isPrefixOf_text line hlabel]
      by_cases hfound : (line.label == label) = true
      · obtain ⟨unit, hwords⟩ := words_text line
        rw [if_pos hfound, hwords, amountOf_cons, if_pos (beq_iff_eq.mp hfound)]
        show (pyInt (Nat.toDigits 10 line.amount) >>= fun kb => _) = _
        rw [pyInt_toDigits]
        simp [bind, Except.bind]
      · rw [if_neg hfound, ih, amountOf_cons, if_neg fun heq => hfound (beq_iff_eq.mpr heq)]

/-- The amount under a label is read as it was written. -/
theorem firstGb_meminfo {label : String} (hlabel : ':' ∉ label.toList) (lines : List MeminfoLine) :
    firstGb (label ++ ":") ((meminfoText lines).toList.splitOn '\n') =
      .ok ((amountOf lines label).map fun kb : ℕ => (kb : ℚ) / (1024 * 1024)) := by
  have hlines : ∀ text ∈ lines.map MeminfoLine.text, '\n' ∉ text := by
    intro text htext
    obtain ⟨line, -, rfl⟩ := List.mem_map.mp htext
    exact newline_notMem_text line
  rw [meminfoText, lines_of_linesText hlines, firstGb_lines hlabel]

/-! ## The account of a node -/

/-- The counters are those of the lines, one after the other. -/
theorem countersFrom_lines (node : ℕ) (lines : List MeminfoLine) (n : NodeCounters) :
    countersFrom n (lines.map (MeminfoLine.nodeText node) ++ [[]]) =
      .ok (lines.foldl (fun n line => n.assign line.label line.amount) n) := by
  induction lines generalizing n with
  | nil => rfl
  | cons line rest ih =>
      have hlabel : String.ofList ((line.label.toList ++ [':']).rdropWhile (· == ':')) = line.label := by
        have hcolon : ∀ hne : line.label.toList ≠ [],
            ¬ (line.label.toList.getLast hne == ':') = true := fun hne heq =>
          (line.solid _ (List.getLast_mem hne)).2 (beq_iff_eq.mp heq)
        rw [List.rdropWhile_concat_pos _ _ _ rfl, List.rdropWhile_eq_self_iff.mpr hcolon,
          String.ofList_toList]
      obtain ⟨unit, hwords⟩ := words_nodeText line node
      rw [List.map_cons, List.cons_append, countersFrom, hwords]
      show (pyInt (Nat.toDigits 10 line.amount) >>= fun val => _) = _
      rw [pyInt_toDigits, hlabel]
      exact ih _

/-- A counter that goes by one key ends as the amount under it. -/
theorem foldl_assign (counter : NodeCounters → ℤ) (key : String)
    (hcounter : ∀ n key' val, counter (NodeCounters.assign n key' val) =
      if key' = key then val else counter n)
    {lines : List MeminfoLine} (hdistinct : (lines.map MeminfoLine.label).Nodup) (n : NodeCounters) :
    counter (lines.foldl (fun n line => n.assign line.label line.amount) n) =
      ((amountOf lines key).map Int.ofNat).getD (counter n) := by
  induction lines generalizing n with
  | nil => rfl
  | cons line rest ih =>
      obtain ⟨hnew, hrest⟩ := List.nodup_cons.mp hdistinct
      rw [List.foldl_cons, ih hrest, hcounter, amountOf_cons]
      by_cases hkey : line.label = key
      · have hnone : amountOf rest key = none := by
          rw [amountOf, Option.map_eq_none_iff, List.find?_eq_none]
          intro other hother heq
          apply hnew
          rw [hkey, ← beq_iff_eq.mp heq]
          exact List.mem_map_of_mem hother
        rw [if_pos hkey, if_pos hkey, hnone]
        rfl
      · rw [if_neg hkey, if_neg hkey]

/-- The anonymous memory of a node, in kB. -/
def anonKb (lines : List MeminfoLine) : ℕ :=
  (amountOf lines "Active(anon)").getD 0 + (amountOf lines "Inactive(anon)").getD 0

/-- The memory of a node is read as it was written. -/
theorem nodeMemoryGb_meminfo (node : ℕ) {lines : List MeminfoLine}
    (hdistinct : (lines.map MeminfoLine.label).Nodup) :
    nodeMemoryGb (.ok (nodeMeminfoText node lines)) =
      .ok (some ((anonKb lines : ℚ) / (1024 * 1024)),
        some (((amountOf lines "MemFree").getD 0 : ℕ) / (1024 * 1024))) := by
  have hlines : ∀ text ∈ lines.map (MeminfoLine.nodeText node), '\n' ∉ text := by
    intro text htext
    obtain ⟨line, -, rfl⟩ := List.mem_map.mp htext
    exact newline_notMem_nodeText line node
  have hactive := foldl_assign NodeCounters.activeAnon "Active(anon)"
    (fun n key' val => by unfold NodeCounters.assign; split_ifs <;> simp_all) hdistinct {}
  have hinactive := foldl_assign NodeCounters.inactiveAnon "Inactive(anon)"
    (fun n key' val => by unfold NodeCounters.assign; split_ifs <;> simp_all) hdistinct {}
  have hfree := foldl_assign NodeCounters.freeKb "MemFree"
    (fun n key' val => by unfold NodeCounters.assign; split_ifs <;> simp_all) hdistinct {}
  have hnat : ∀ amount : Option ℕ, (amount.map Int.ofNat).getD 0 = ((amount.getD 0 : ℕ) : ℤ) := by
    rintro (- | kb) <;> rfl
  rw [nodeMemoryGb]
  simp only [bind, Except.bind]
  rw [nodeMeminfoText, lines_of_linesText hlines, countersFrom_lines]
  simp only [hactive, hinactive, hfree, hnat, anonKb]
  push_cast
  rfl

/-! ## The memory gate -/

/-- The job would overcommit the node: the gate is on, the job does not spread its memory, the
account of the node can be read, and what it has in use leaves no room below the cap. -/
def Overcommits (options : AllocateOptions) (files : ℤ → Except Exc String)
    (account : ℤ → List MeminfoLine) (node : ℤ) : Prop :=
  0 < options.nodeRamCapGb ∧
    (options.interleaveThresholdGb ≤ 0 ∨ options.ramGb < options.interleaveThresholdGb) ∧
    files node = .ok (nodeMeminfoText node.toNat (account node)) ∧
    options.nodeRamCapGb - options.nodeRamSafetyGb <
      (anonKb (account node) : ℚ) / (1024 * 1024) + options.ramGb

/-- What the kernel shows of the memory of a node: its account, unless that cannot be read. -/
def ShowsMemory (files : ℤ → Except Exc String) (account : ℤ → List MeminfoLine) (node : ℤ) : Prop :=
  ((account node).map MeminfoLine.label).Nodup ∧
    (files node = .ok (nodeMeminfoText node.toNat (account node)) ∨
      ∃ e, files node = .error e ∧ e.cls.isOSError = true)

theorem gateRam_iff (options : AllocateOptions) : options.gateRam = true ↔
    0 < options.nodeRamCapGb ∧
      (options.interleaveThresholdGb ≤ 0 ∨ options.ramGb < options.interleaveThresholdGb) := by
  simp only [AllocateOptions.gateRam, AllocateOptions.willInterleave, Bool.and_eq_true,
    decide_eq_true_eq, Bool.not_eq_true', Bool.and_eq_false_iff, decide_eq_false_iff_not, not_lt,
    not_le]

/-- The gate lets a node pass unless the job would overcommit it. -/
theorem passesGate_iff {options : AllocateOptions} {files : ℤ → Except Exc String}
    {account : ℤ → List MeminfoLine} {node : ℤ} (hshows : ShowsMemory files account node)
    (hread : ∃ free, nodeMemoryGb (files node) = .ok (options.anonGb node, free)) :
    options.PassesGate node ↔ ¬ Overcommits options files account node := by
  obtain ⟨free, hread⟩ := hread
  obtain ⟨hdistinct, hfile | ⟨e, hfile, hos⟩⟩ := hshows
  · have hanon : options.anonGb node = some ((anonKb (account node) : ℚ) / (1024 * 1024)) := by
      rw [hfile, nodeMemoryGb_meminfo node.toNat hdistinct, Except.ok.injEq, Prod.mk.injEq] at hread
      exact hread.1.symm
    simp only [AllocateOptions.PassesGate, hanon, Option.some.injEq, forall_eq', Overcommits, hfile,
      true_and, gateRam_iff, AllocateOptions.safeCap]
    constructor
    · rintro hpass ⟨hcap, hbind, hover⟩
      exact not_le.mpr hover (hpass ⟨hcap, hbind⟩)
    · rintro hnot ⟨hcap, hbind⟩
      exact not_lt.mp fun hover => hnot ⟨hcap, hbind, hover⟩
  · have hanon : options.anonGb node = none := by
      rw [hfile, nodeMemoryGb] at hread
      simp only [bind, Except.bind, hos, Bool.true_or, if_true, Except.ok.injEq, Prod.mk.injEq] at hread
      exact hread.1.symm
    refine iff_of_true (fun _ anon h => ?_) fun hover => ?_
    · rw [hanon] at h
      cases h
    · cases hfile.symm.trans hover.2.2.1

/-- With the memory of the nodes read from the kernel, an allocation finds no place exactly when
every node is short of CPUs or would be overcommitted, and never overcommits the one it chooses. -/
theorem gated_allocation (n : ℤ) (occupied : Finset ℤ) (numaNodes : List (ℤ × String))
    (options : AllocateOptions) (files : ℤ → Except Exc String) (account : ℤ → List MeminfoLine)
    (hpos : 0 < n) (hparse : ∀ entry ∈ numaNodes, ∃ cores, parseCpuList entry.2 = .ok cores)
    (hshows : ∀ entry ∈ numaNodes, ShowsMemory files account entry.1)
    (hread : ∀ entry ∈ numaNodes, ∃ free,
      nodeMemoryGb (files entry.1) = .ok (options.anonGb entry.1, free)) :
    ∃ result, allocate n occupied numaNodes options = .ok result ∧
      (result = none ↔ ∀ node cores, Listed numaNodes node cores →
        ((cores \ occupied).card : ℤ) < n ∨ Overcommits options files account node) ∧
      ∀ placement, result = some placement → ¬ Overcommits options files account placement.node := by
  have hgate : ∀ {node : ℤ} {cores : Finset ℤ}, Listed numaNodes node cores →
      (options.PassesGate node ↔ ¬ Overcommits options files account node) := by
    rintro node cores ⟨spec, hentry, -⟩
    exact passesGate_iff (hshows _ hentry) (hread _ hentry)
  rcases exists_allocate hpos hparse with ⟨hnone, hfull⟩ | ⟨placement, cores, block, hsome, hbest⟩
  · refine ⟨none, hnone, iff_of_true rfl fun node cores hlisted => ?_, fun _ h => by cases h⟩
    by_contra hfits
    push Not at hfits
    exact hfull node cores ⟨hlisted, hfits.1, (hgate hlisted).mpr hfits.2⟩
  · have hpasses : ¬ Overcommits options files account placement.node :=
      (hgate hbest.eligible.listed).mp hbest.eligible.gate
    refine ⟨some placement, hsome, iff_of_false (by simp) fun h => ?_, ?_⟩
    · rcases h _ _ hbest.eligible.listed with hshort | hover
      · exact absurd hbest.eligible.room (not_le.mpr hshort)
      · exact hpasses hover
    · rintro _ ⟨⟩
      exact hpasses

/-! ### Two nodes, one of them full -/

theorem solid_of_all {label : String}
    (h : (label.toList.all fun c => !Text.blank c && c != ':') = true) :
    ∀ c ∈ label.toList, Text.blank c = false ∧ c ≠ ':' := by
  intro c hc
  simpa using List.all_eq_true.mp h c hc

theorem solid_active : ∀ c ∈ "Active(anon)".toList, Text.blank c = false ∧ c ≠ ':' :=
  solid_of_all (by decide +kernel)

theorem solid_inactive : ∀ c ∈ "Inactive(anon)".toList, Text.blank c = false ∧ c ≠ ':' :=
  solid_of_all (by decide +kernel)

/-- The account of a node with so much anonymous memory in use. -/
def anonAccount (active inactive : ℕ) : List MeminfoLine :=
  [⟨"Active(anon)", solid_active, 3, active, true⟩, ⟨"Inactive(anon)", solid_inactive, 1, inactive, true⟩]

/-- A node with 40 GiB in use, and others with 8 GiB. -/
def fullFirst (node : ℤ) : List MeminfoLine :=
  if node = 0 then anonAccount 33554432 8388608 else anonAccount 8388608 0

def fullFirstFiles (node : ℤ) : Except Exc String :=
  .ok (nodeMeminfoText node.toNat (fullFirst node))

/-- A cap of 64 GiB with 8 GiB kept free, and a job of 20 GiB. -/
def cappedOptions : AllocateOptions where
  ramGb := 20
  nodeRamCapGb := 64
  nodeRamSafetyGb := 8
  anonGb node := if node = 0 then some 40 else some 8

theorem nodup_fullFirst (node : ℤ) : ((fullFirst node).map MeminfoLine.label).Nodup := by
  unfold fullFirst
  split <;> decide

theorem nodeMemoryGb_fullFirst (node : ℤ) :
    ∃ free, nodeMemoryGb (fullFirstFiles node) = .ok (cappedOptions.anonGb node, free) := by
  have hanon : cappedOptions.anonGb node = some ((anonKb (fullFirst node) : ℚ) / (1024 * 1024)) := by
    have hfull : (anonKb (anonAccount 33554432 8388608) : ℚ) / (1024 * 1024) = 40 := by decide +kernel
    have hother : (anonKb (anonAccount 8388608 0) : ℚ) / (1024 * 1024) = 8 := by decide +kernel
    by_cases hnode : node = 0
    · rw [fullFirst, if_pos hnode, hfull]
      exact if_pos hnode
    · rw [fullFirst, if_neg hnode, hother]
      exact if_neg hnode
  rw [hanon]
  exact ⟨_, nodeMemoryGb_meminfo node.toNat (nodup_fullFirst node)⟩

/-- The job is kept off the full node, where there are more CPUs free. -/
theorem gated_allocation_fullFirst : ∃ placement,
    allocate 2 ∅ [(0, "0-7"), (1, "8-11")] cappedOptions = .ok (some placement) ∧
      placement.node = 1 ∧ ¬ Overcommits cappedOptions fullFirstFiles fullFirst 1 := by
  obtain ⟨result, hresult, -, hkeeps⟩ := gated_allocation 2 ∅ [(0, "0-7"), (1, "8-11")] cappedOptions
    fullFirstFiles fullFirst (by decide) (fun entry hentry => by
      simp only [List.mem_cons, List.not_mem_nil, or_false] at hentry
      rcases hentry with rfl | rfl
      · exact ⟨{0, 1, 2, 3, 4, 5, 6, 7}, by decide +kernel⟩
      · exact ⟨{8, 9, 10, 11}, by decide +kernel⟩)
    (fun entry _ => ⟨nodup_fullFirst entry.1, .inl rfl⟩)
    (fun entry _ => nodeMemoryGb_fullFirst entry.1)
  have hplaced : allocate 2 ∅ [(0, "0-7"), (1, "8-11")] cappedOptions =
      .ok (some { cpuList := "8-9", node := 1 }) := by decide +kernel
  obtain rfl : some { cpuList := "8-9", node := 1 } = result := Except.ok.inj (hplaced.symm.trans hresult)
  exact ⟨_, hplaced, rfl, hkeeps _ rfl⟩

/-! ## Budgets that are not set -/

/-- A typed config with the values of an untyped one. -/
structure RepresentsConfig (record : ConfigRecord) (config : Config) : Prop where
  maxConcurrent : record.get .maxConcurrent = .leaf (.int config.maxConcurrent)
  ramBudgetGb : IsNumber (record.get .ramBudgetGb) config.ramBudgetGb
  coreBudget : record.get .coreBudget = .leaf (.int config.coreBudget)
  ramSafetyGb : IsNumber (record.get .ramSafetyGb) config.ramSafetyGb
  reservedCores : record.get .reservedCores = .leaf (.str config.reservedCores)
  interleaveThresholdGb : IsNumber (record.get .interleaveThresholdGb) config.interleaveThresholdGb
  memorySlice : record.get .memorySlice = .leaf (.str config.memorySlice)
  orchestratorOomScoreAdj :
    record.get .orchestratorOomScoreAdj = .leaf (.int config.orchestratorOomScoreAdj)
  jobOomScoreAdj : record.get .jobOomScoreAdj = .leaf (.int config.jobOomScoreAdj)
  oomCooldownSeconds : IsNumber (record.get .oomCooldownSeconds) config.oomCooldownSeconds
  runner : record.get .runner = .leaf (.str config.runner)
  pollInterval : IsNumber (record.get .pollInterval) config.pollInterval
  statePath : record.get .statePath = .leaf (.str config.statePath)
  pauseFile : record.get .pauseFile = .leaf (.str config.pauseFile)

/-- The queue file does not set the field, or sets it to a number that is not positive. -/
def Unset (doc : Value) (field : ConfigField) : Prop :=
  ∀ v, getKey field.name (globalItems doc) = some v → v.nonpositive = .ok true

section Budgets

variable {py : Interpreter} {host : HostSize} {doc : Value} {record : ConfigRecord}
  {records : List JobRecord}

theorem configFromGlobal_items {block : Option Value} (h : configFromGlobal host block = .ok record) :
    (configRecord (blockItems block)).postInit host = .ok record := by
  cases block with
  | none => exact h
  | some v =>
      cases htruthy : v.truthy with
      | false =>
          rw [configFromGlobal_of_not_truthy host htruthy] at h
          cases v with
          | dict items =>
              cases items with
              | nil => exact h
              | cons item rest => cases htruthy
          | leaf a => exact h
          | list xs => exact h
      | true =>
          cases v with
          | dict items => rwa [configFromGlobal_dict] at h
          | leaf a =>
              rw [configFromGlobal] at h
              simp only [Option.getD_some, htruthy, if_true] at h
              cases h
          | list xs =>
              rw [configFromGlobal] at h
              simp only [Option.getD_some, htruthy, if_true] at h
              cases h

/-- A budget that is not set is filled in from the host. -/
theorem postInit_unset {items : List (Scalar × Value)}
    (h : (configRecord items).postInit host = .ok record)
    (hcores : ∀ v, getKey "core_budget" items = some v → v.nonpositive = .ok true)
    (hram : ∀ v, getKey "ram_budget_gb" items = some v → v.nonpositive = .ok true) :
    record.get .coreBudget = .leaf (.int host.physicalCores) ∧
      record.get .ramBudgetGb = .leaf (.float (.finite host.ramBudgetGb)) := by
  have hset : ∀ {name : String} {default : Value}, default.nonpositive = .ok true →
      (∀ v, getKey name items = some v → v.nonpositive = .ok true) →
      Value.nonpositive ((getKey name items).getD default) = .ok true := by
    intro name default hdefault hgiven
    cases hkey : getKey name items with
    | none => exact hdefault
    | some v => exact hgiven v hkey
  have hcores' : Value.nonpositive ((configRecord items).get .coreBudget) = .ok true :=
    hset rfl hcores
  have hram' : Value.nonpositive ((configRecord items).get .ramBudgetGb) = .ok true :=
    hset (by decide) hram
  rw [ConfigRecord.postInit, hcores', hram'] at h
  cases h
  exact ⟨rfl, rfl⟩

/-- So the budgets of a queue that sets none are those of the host. -/
theorem budgets_of_unset (h : loadQueue py host doc = .ok (record, records))
    (hcores : Unset doc .coreBudget) (hram : Unset doc .ramBudgetGb) :
    record.get .coreBudget = .leaf (.int host.physicalCores) ∧
      record.get .ramBudgetGb = .leaf (.float (.finite host.ramBudgetGb)) := by
  obtain ⟨⟨block, hblock, hitems⟩, -⟩ := loadQueue_eq_ok py host h
  have hloaded := configFromGlobal_items hblock
  rw [hitems] at hloaded
  exact postInit_unset hloaded hcores hram

/-- A typed config of such a record has them. -/
theorem RepresentsConfig.budgets {config : Config} (h : RepresentsConfig record config)
    (hcores : record.get .coreBudget = .leaf (.int host.physicalCores))
    (hram : record.get .ramBudgetGb = .leaf (.float (.finite host.ramBudgetGb))) :
    config.coreBudget = host.physicalCores ∧ config.ramBudgetGb = host.ramBudgetGb := by
  constructor
  · have hboth := h.coreBudget.symm.trans hcores
    simpa using hboth
  · have hnumber := h.ramBudgetGb
    rw [hram] at hnumber
    exact hnumber.unique (.float _)

end Budgets

/-! ## The size of the host -/

/-- The CPUs the process may run on are counted. -/
theorem hostPhysicalCores_eq {sys : SysFs} {allowed : Finset ℤ} (h : MayRunOn sys allowed) :
    hostPhysicalCores sys = .ok allowed.card := by
  unfold hostPhysicalCores
  cases haffinity : sys.affinity with
  | ok cpus => rw [h.known cpus haffinity]
  | error e =>
      obtain ⟨hcaught, hcpus⟩ := h.counted haffinity
      simp only [hcaught, if_true, ← hcpus]
      rw [List.toFinset_card_of_nodup (Runs.nodup_span _ _), Runs.length_span]
      exact congrArg Except.ok (by omega)

theorem hostTotalRamGb_eq {lines : List MeminfoLine} {total : ℕ}
    (h : amountOf lines "MemTotal" = some total) :
    hostTotalRamGb (.ok (meminfoText lines)) = .ok ((total : ℚ) / (1024 * 1024)) := by
  have hread : firstGb "MemTotal:" ((meminfoText lines).toList.splitOn '\n') =
      .ok (some ((total : ℚ) / (1024 * 1024))) := by
    rw [← Option.map_some (f := fun kb : ℕ => (kb : ℚ) / (1024 * 1024)), ← h]
    have hlabel : ':' ∉ "MemTotal".toList := by decide
    exact firstGb_meminfo hlabel lines
  rw [hostTotalRamGb]
  simp only [bind, Except.bind, hread, Option.getD_some]

/-- What is taken for `round(total * 0.85, 1)` is that but for the rounding of floats. -/
def TakesShare (budgetOf : ℚ → ℚ) : Prop :=
  ∀ total, 0 ≤ total → |budgetOf total - total * (85 / 100)| ≤ 1 / 20 + total / 2 ^ 50

/-- The share of the memory that is budgeted is no more than there is, from half a GiB on. -/
theorem TakesShare.le {budgetOf : ℚ → ℚ} (h : TakesShare budgetOf) {total : ℚ} (hroom : 1 / 2 ≤ total) :
    budgetOf total ≤ total := by
  have hnear := (abs_le.mp (h total (by linarith))).2
  calc budgetOf total ≤ total * (85 / 100) + 1 / 20 + total / 2 ^ 50 := by linarith
    _ ≤ total := by linarith

/-- A queue file that sets no budgets is loaded with those of the host, and in every state of every
run with them the running jobs have asked for no more CPUs than the process may run on, and, where
no memory slice is watched, for no more memory than the host has. -/
theorem unset_budgets {W : Type} [Host W] (py : Interpreter) (sys : SysFs) {allowed : Finset ℤ}
    (lines : List MeminfoLine) (total : ℕ) (budgetOf : ℚ → ℚ) (hallowed : MayRunOn sys allowed)
    (htotal : amountOf lines "MemTotal" = some total) (hroom : 1024 * 1024 ≤ 2 * total)
    (hshare : TakesShare budgetOf) :
    ∃ host, hostSize budgetOf sys (.ok (meminfoText lines)) = .ok host ∧
      host.physicalCores = allowed.card ∧ host.ramBudgetGb = budgetOf (total / (1024 * 1024)) ∧
      ∀ (doc : Value) (record : ConfigRecord) (records : List JobRecord),
        loadQueue py host doc = .ok (record, records) →
        Unset doc .coreBudget → Unset doc .ramBudgetGb →
        record.get .coreBudget = .leaf (.int allowed.card) ∧
        record.get .ramBudgetGb = .leaf (.float (.finite (budgetOf (total / (1024 * 1024))))) ∧
        ∀ (site : Site) (s : Sys W), RepresentsConfig record site.config →
          NonNegative site.queue → Idle site.queue → Reached site true s →
          runningCores s.jobs ≤ allowed.card ∧
            (site.config.memorySlice = "" →
              runningRamGb s.jobs ≤ (total : ℚ) / (1024 * 1024)) := by
  refine ⟨⟨allowed.card, budgetOf (total / (1024 * 1024))⟩, ?_, rfl, rfl, ?_⟩
  · rw [hostSize, hostPhysicalCores_eq hallowed, hostTotalRamGb_eq htotal]
    rfl
  · intro doc record records hload hcores hram
    obtain ⟨hcoreBudget, hramBudget⟩ := budgets_of_unset hload hcores hram
    refine ⟨hcoreBudget, hramBudget, fun site s hconfig hdeclared hidle hreached => ?_⟩
    obtain ⟨hconfigCores, hconfigRam⟩ := hconfig.budgets hcoreBudget hramBudget
    obtain ⟨-, hceilings⟩ : NonNegative s.jobs ∧ Ceilings site.config s.jobs := by
      refine (hreached.jobs (J := fun jobs => NonNegative jobs ∧ Ceilings site.config jobs)
        ⟨hdeclared, hidle.ceilings⟩ ?_).1
      rintro label jobs jobs' hturn ⟨hnonneg, hceilings⟩
      exact ⟨hturn.nonNegative hnonneg, hturn.ceilings hnonneg hceilings⟩
    have hwithin : budgetOf (total / (1024 * 1024)) ≤ (total : ℚ) / (1024 * 1024) := by
      apply hshare.le
      have hcast : (1024 * 1024 : ℚ) ≤ 2 * total := by exact_mod_cast hroom
      rw [div_le_div_iff₀ (by norm_num) (by norm_num)]
      linarith
    by_cases hnone : running s.jobs = []
    · refine ⟨?_, fun _ => ?_⟩
      · rw [runningCores, hnone]
        simp
      · rw [runningRamGb, hnone]
        simp only [List.map_nil, List.sum_nil]
        positivity
    · exact ⟨hconfigCores ▸ hceilings.cores hnone, fun hslice =>
        (hceilings.ram hslice hnone).trans (hconfigRam ▸ hwithin)⟩

/-! ### A host of eight CPUs and 16 GiB -/

theorem solid_memTotal : ∀ c ∈ "MemTotal".toList, Text.blank c = false ∧ c ≠ ':' :=
  solid_of_all (by decide +kernel)

theorem solid_memFree : ∀ c ∈ "MemFree".toList, Text.blank c = false ∧ c ≠ ':' :=
  solid_of_all (by decide +kernel)

/-- What `/proc/meminfo` says there. -/
def hostAccount : List MeminfoLine :=
  [⟨"MemTotal", solid_memTotal, 7, 16777216, true⟩, ⟨"MemFree", solid_memFree, 8, 1048576, true⟩]

/-- A queue file of two jobs that sets no budgets. -/
def budgetDoc : Value :=
  .dict [(.str "global", .dict [(.str "memory_slice", .leaf (.str "")), (.str "core_budget", .leaf (.int 0))]),
    (.str "jobs", .list [
      .dict [(.str "id", .leaf (.str "a")), (.str "command", .leaf (.str "true")),
        (.str "cores", .leaf (.int 2))],
      .dict [(.str "id", .leaf (.str "b")), (.str "command", .leaf (.str "true")),
        (.str "cores", .leaf (.int 3))]])]

/-- Its config on that host. -/
def budgetConfig : Config :=
  { ramBudgetGb := 68 / 5, coreBudget := 8, memorySlice := "" }

theorem reserved_budgetConfig : parseCpuList budgetConfig.reservedCores = .ok ∅ := by
  decide

def budgetSite : Site :=
  smallSite twoJobs budgetConfig reserved_budgetConfig

/-- The nearest tenth, as a number. -/
def nearestTenth (x : ℚ) : ℚ :=
  roundHalfEven (x * 10) / 10

theorem takesShare_nearestTenth : TakesShare fun total => nearestTenth (total * (85 / 100)) := by
  intro total hnonneg
  have hnear := abs_roundHalfEven_sub_le (total * (85 / 100) * 10)
  have hsmall : 0 ≤ total / 2 ^ 50 := by positivity
  rw [abs_le] at hnear ⊢
  unfold nearestTenth
  constructor <;> linarith

theorem loadQueue_budgetDoc : ∃ record records,
    loadQueue silent ⟨({0, 1, 2, 3, 4, 5, 6, 7} : Finset ℤ).card,
      nearestTenth ((16777216 : ℕ) / (1024 * 1024) * (85 / 100))⟩ budgetDoc = .ok (record, records) ∧
      RepresentsConfig record budgetConfig := by
  refine ⟨_, _, rfl, ?_⟩
  have hbudget : nearestTenth ((16777216 : ℕ) / (1024 * 1024) * (85 / 100)) = 68 / 5 := by
    decide +kernel
  constructor
  case ramBudgetGb =>
    show IsNumber (.leaf (.float (.finite
      (nearestTenth ((16777216 : ℕ) / (1024 * 1024) * (85 / 100)))))) (68 / 5)
    rw [hbudget]
    exact .float _
  case ramSafetyGb => exact .float 20
  case interleaveThresholdGb => exact .float 0
  case oomCooldownSeconds => exact .int 300
  case pollInterval => exact .int 10
  all_goals rfl

/-- Both jobs run there, within what the host has. -/
theorem unset_budgets_small : ∃ s : Sys World, s.jobs.map Job.status = [.running, .running] ∧
    runningCores s.jobs ≤ 8 ∧ runningRamGb s.jobs ≤ 16 := by
  obtain ⟨changed, s, htick, hstatus⟩ := of_returns (show returns (tick budgetSite (fresh budgetSite {}))
      (fun s => s.jobs.map Job.status == [.running, .running]) = true by decide +kernel)
  obtain ⟨record, records, hload, hconfig⟩ := loadQueue_budgetDoc
  have hallowed : MayRunOn twoNodes {0, 1, 2, 3, 4, 5, 6, 7} :=
    ⟨by decide, fun cpus h => by cases h; rfl, fun e h => by cases h⟩
  have hunset : ∀ field, field = .coreBudget ∨ field = .ramBudgetGb → Unset budgetDoc field := by
    rintro field (rfl | rfl) v hv
    · cases hv
      rfl
    · cases hv
  obtain ⟨⟨cores, budget⟩, -, hcount, hamount, hruns⟩ := unset_budgets (W := World) silent twoNodes
    hostAccount 16777216 (fun total => nearestTenth (total * (85 / 100))) hallowed (by decide +kernel)
    (by decide) takesShare_nearestTenth
  obtain rfl : cores = _ := hcount
  obtain rfl : budget = _ := hamount
  obtain ⟨-, -, hstates⟩ := hruns budgetDoc record records hload (hunset _ (.inl rfl))
    (hunset _ (.inr rfl))
  obtain ⟨hcores, hram⟩ := hstates budgetSite s hconfig (by decide +kernel) (by decide)
    (reached_of_tick htick)
  have hsixteen : ((16777216 : ℕ) : ℚ) / (1024 * 1024) = 16 := by norm_num
  exact ⟨s, beq_iff_eq.mp hstatus, hcores, hsixteen ▸ hram rfl⟩

end Nodepilot
