import Nodepilot.Model.Topology
import Nodepilot.Safety.PhysicalCores
import Nodepilot.Safety.Pins

/-!
# From what the kernel shows to where the jobs run

An orchestrator that is given no topology reads it from the kernel, once and for all its
runs.  The kernel shows a directory for every NUMA node, with the text of its CPUs, and
that text is in the form `format_cpu_list` writes; some of the files may not be readable,
and a node may have no CPUs.  What the orchestrator then works with are the nodes that can
be read and have CPUs, or, if there are none, a single node of all the CPUs the process may
run on (`listed_iff`).

So the construction succeeds, no allocation ever raises, and one fails only when no node of
the machine has room (`detected_topology`); in every state of every run a job holds CPUs of
one node of the machine.
-/

namespace Nodepilot

open Runs Trees

/-! ## What the kernel shows -/

/-- The directory of a node. -/
def nodeName (i : ℕ) : String :=
  String.ofList ("node".toList ++ Nat.toDigits 10 i)

/-- The listing of a machine whose node `i` has the CPUs `cpus i`; some of it may not be readable,
and there may be other directories that look like a node's. -/
structure ShowsNodes (cpus : ℕ → Finset ℤ) (entries : List (String × Except Exc String)) :
    Prop where
  distinct : (entries.map Prod.fst).Nodup
  own : ∀ entry ∈ entries, isNodeEntry entry.1 = true →
    Text.parseInt (entry.1.toList.drop 4) = none ∨ ∃ i, entry.1 = nodeName i ∧
      (entry.2 = .ok (formatCpuList (cpus i) ++ "\n") ∨
        ∃ e, entry.2 = .error e ∧ e.cls.isOSError = true)

/-- The node has CPUs and its listing can be read. -/
def NodeShown (cpus : ℕ → Finset ℤ) (entries : List (String × Except Exc String)) (i : ℕ) : Prop :=
  (cpus i).Nonempty ∧ ∃ text, (nodeName i, .ok text) ∈ entries

/-- The CPUs the process may run on, as far as it can tell. -/
structure MayRunOn (sys : SysFs) (allowed : Finset ℤ) : Prop where
  nonneg : ∀ c ∈ allowed, 0 ≤ c
  known : ∀ cpus, sys.affinity = .ok cpus → cpus = allowed
  unknown : ∀ e, sys.affinity = .error e →
    (e.cls = .attributeError ∨ e.cls.isOSError = true) ∧
      ∀ c, c ∈ allowed ↔ 0 ≤ c ∧ c < max 1 (sys.cpuCount.getD 1)

/-- A node of the machine that the scheduler is to use: one that can be read, or, if there is none,
the node `0` of all the CPUs allowed. -/
def MachineNode (cpus : ℕ → Finset ℤ) (allowed : Finset ℤ) (sys : SysFs) (node : ℤ)
    (cores : Finset ℤ) : Prop :=
  (∃ i : ℕ, node = i ∧ cores = cpus i ∧ NodeShown cpus (sys.nodes.getD []) i) ∨
    (node = 0 ∧ cores = allowed ∧ ∀ i, ¬ NodeShown cpus (sys.nodes.getD []) i)

/-! ## Reading one entry -/

theorem toList_nodeName (i : ℕ) : (nodeName i).toList = "node".toList ++ Nat.toDigits 10 i :=
  String.toList_ofList

/-- The number of a node is read back from its name. -/
theorem pyInt_nodeName (i : ℕ) : pyInt ((nodeName i).toList.drop 4) = .ok (i : ℤ) := by
  have hdigits : (nodeName i).toList.drop 4 = Nat.toDigits 10 i := by
    rw [toList_nodeName]
    rfl
  rw [hdigits, pyInt, Text.parseInt_toDigits]

theorem nodeName_injective {i j : ℕ} (h : nodeName i = nodeName j) : i = j := by
  have hread := pyInt_nodeName i
  rw [h, pyInt_nodeName j, Except.ok.injEq] at hread
  exact_mod_cast hread.symm

theorem isNodeEntry_nodeName (i : ℕ) : isNodeEntry (nodeName i) = true := by
  obtain ⟨c, rest, hdigits⟩ := List.exists_cons_of_ne_nil (Nat.toDigits_ne_nil (b := 10) (n := i))
  have hc : c.isDigit = true := by
    apply Text.isDigit_of_mem_toDigits (n := i)
    rw [hdigits]
    exact List.mem_cons_self ..
  unfold isNodeEntry
  rw [toList_nodeName, hdigits]
  exact hc

/-- The line end after a formatted list is stripped again. -/
theorem strip_formatted {cores : Finset ℤ} (h : ∀ c ∈ cores, 0 ≤ c) :
    String.ofList (Text.strip (formatCpuList cores ++ "\n").toList) = formatCpuList cores := by
  have hsolid : ∀ d ∈ (formatCpuList cores).toList, Text.blank d = false :=
    fun d hd => blank_of_mem_format h hd
  have hsplit : (formatCpuList cores ++ "\n").toList = (formatCpuList cores).toList ++ ['\n'] :=
    String.toList_append
  rw [hsplit, Text.strip_concat_blank (by decide) hsolid, String.ofList_toList]

theorem formatCpuList_eq_empty {cores : Finset ℤ} : formatCpuList cores = "" ↔ cores = ∅ := by
  constructor
  · intro h
    by_contra hne
    exact formatCpuList_ne_empty (Finset.nonempty_iff_ne_empty.mpr hne) h
  · rintro rfl
    rfl

/-! ## Detection -/

section Detection

variable {cpus : ℕ → Finset ℤ} {allowed : Finset ℤ} {sys : SysFs}

theorem nodeShown_cons {entry : String × Except Exc String}
    {rest : List (String × Except Exc String)} {i : ℕ} :
    NodeShown cpus (entry :: rest) i ↔
      ((cpus i).Nonempty ∧ entry.1 = nodeName i ∧ ∃ text, entry.2 = .ok text) ∨
        NodeShown cpus rest i := by
  obtain ⟨name, content⟩ := entry
  unfold NodeShown
  constructor
  · rintro ⟨hne, text, hmem⟩
    rcases List.mem_cons.mp hmem with heq | hrest
    · cases heq
      exact .inl ⟨hne, rfl, text, rfl⟩
    · exact .inr ⟨hne, text, hrest⟩
  · rintro (⟨hne, rfl, text, rfl⟩ | ⟨hne, text, hmem⟩)
    · exact ⟨hne, text, List.mem_cons_self ..⟩
    · exact ⟨hne, text, List.mem_cons_of_mem _ hmem⟩

/-- One round of the loop: the node of the entry is added if it can be read, and the entry is passed
over if it is none of such a node. -/
theorem nodesFrom_cons (hnonneg : ∀ i, ∀ c ∈ cpus i, 0 ≤ c) {name : String}
    {content : Except Exc String}
    (hown : Text.parseInt (name.toList.drop 4) = none ∨ ∃ i, name = nodeName i ∧
      (content = .ok (formatCpuList (cpus i) ++ "\n") ∨
        ∃ e, content = .error e ∧ e.cls.isOSError = true)) (nodes : List (ℤ × String))
    (rest : List (String × Except Exc String)) :
    (∃ i, ((cpus i).Nonempty ∧ name = nodeName i ∧ ∃ text, content = .ok text) ∧
      nodesFrom nodes ((name, content) :: rest) =
        nodesFrom (insert (i : ℤ) (formatCpuList (cpus i)) nodes) rest) ∨
    ((∀ i, ¬ ((cpus i).Nonempty ∧ name = nodeName i ∧ ∃ text, content = .ok text)) ∧
      nodesFrom nodes ((name, content) :: rest) = nodesFrom nodes rest) := by
  rcases hown with hnumeral | ⟨i, rfl, rfl | ⟨e, rfl, hos⟩⟩
  · right
    constructor
    · rintro i ⟨-, rfl, -⟩
      have hread := pyInt_nodeName i
      rw [pyInt, hnumeral] at hread
      cases hread
    · rw [nodesFrom, pyInt, hnumeral]
  · by_cases hempty : cpus i = ∅
    · right
      constructor
      · rintro j ⟨hne, hij, -⟩
        rw [← nodeName_injective hij, hempty] at hne
        exact Finset.not_nonempty_empty hne
      · rw [nodesFrom, pyInt_nodeName]
        simp only [strip_formatted (hnonneg i)]
        rw [if_pos (formatCpuList_eq_empty.mpr hempty)]
    · left
      refine ⟨i, ⟨Finset.nonempty_iff_ne_empty.mpr hempty, rfl, _, rfl⟩, ?_⟩
      rw [nodesFrom, pyInt_nodeName]
      simp only [strip_formatted (hnonneg i), formatCpuList_eq_empty, if_neg hempty]
  · right
    constructor
    · rintro j ⟨-, -, text, htext⟩
      cases htext
    · rw [nodesFrom, pyInt_nodeName]
      simp only [hos, if_true]

/-- What the loop collects, whatever it has collected before: the nodes that can be read. -/
theorem nodesFrom_spec (hnonneg : ∀ i, ∀ c ∈ cpus i, 0 ≤ c)
    {entries : List (String × Except Exc String)} (hentries : ShowsNodes cpus entries)
    (hnames : ∀ entry ∈ entries, isNodeEntry entry.1 = true) {nodes : List (ℤ × String)}
    (hfresh : ∀ i, nodeName i ∈ entries.map Prod.fst → (i : ℤ) ∉ nodes.map Prod.fst) :
    ∃ found, nodesFrom nodes entries = .ok found ∧ ∀ node spec, (node, spec) ∈ found ↔
      (node, spec) ∈ nodes ∨
        ∃ i : ℕ, node = i ∧ spec = formatCpuList (cpus i) ∧ NodeShown cpus entries i := by
  induction entries generalizing nodes with
  | nil =>
      refine ⟨nodes, rfl, fun node spec => ?_⟩
      simp [NodeShown]
  | cons entry rest ih =>
      obtain ⟨name, content⟩ := entry
      obtain ⟨hname, hdistinct⟩ := List.nodup_cons.mp hentries.distinct
      have hrest : ShowsNodes cpus rest :=
        ⟨hdistinct, fun other hother => hentries.own other (List.mem_cons_of_mem _ hother)⟩
      have hnames' : ∀ other ∈ rest, isNodeEntry other.1 = true :=
        fun other hother => hnames other (List.mem_cons_of_mem _ hother)
      have hfresh' : ∀ i, nodeName i ∈ rest.map Prod.fst → (i : ℤ) ∉ nodes.map Prod.fst :=
        fun i hi => hfresh i (List.mem_cons_of_mem _ hi)
      have hown := hentries.own _ (List.mem_cons_self ..) (hnames _ (List.mem_cons_self ..))
      rcases nodesFrom_cons hnonneg hown nodes rest with
        ⟨i, ⟨hne, rfl, hread⟩, hstep⟩ | ⟨hnone, hstep⟩
      · rw [insert_of_notMem (hfresh i (List.mem_cons_self ..))] at hstep
        have hlater : ∀ j, nodeName j ∈ rest.map Prod.fst →
            (j : ℤ) ∉ (nodes ++ [((i : ℤ), formatCpuList (cpus i))]).map Prod.fst := by
          intro j hj hmem
          rw [List.map_append, List.mem_append] at hmem
          rcases hmem with hold | hlast
          · exact hfresh' j hj hold
          · have hji : j = i := by simpa using hlast
            subst hji
            exact hname hj
        obtain ⟨found, hfound, hmem⟩ := ih hrest hnames' hlater
        refine ⟨found, hstep.trans hfound, fun node spec => ?_⟩
        rw [hmem, List.mem_append, List.mem_singleton, or_assoc]
        refine or_congr_right ?_
        constructor
        · rintro (heq | ⟨j, hnode, hspec, hshown⟩)
          · cases heq
            exact ⟨i, rfl, rfl, nodeShown_cons.mpr (.inl ⟨hne, rfl, hread⟩)⟩
          · exact ⟨j, hnode, hspec, nodeShown_cons.mpr (.inr hshown)⟩
        · rintro ⟨j, rfl, rfl, hshown⟩
          rcases nodeShown_cons.mp hshown with ⟨-, hij, -⟩ | hlater
          · rw [nodeName_injective hij]
            exact .inl rfl
          · exact .inr ⟨j, rfl, rfl, hlater⟩
      · obtain ⟨found, hfound, hmem⟩ := ih hrest hnames' hfresh'
        refine ⟨found, hstep.trans hfound, fun node spec => ?_⟩
        have hsame : ∀ i, NodeShown cpus ((name, content) :: rest) i ↔ NodeShown cpus rest i :=
          fun i => nodeShown_cons.trans (or_iff_right (hnone i))
        simp only [hmem, hsame]

/-- The directory as a whole, in the order of the names. -/
theorem listedNodes_spec (hnonneg : ∀ i, ∀ c ∈ cpus i, 0 ≤ c)
    (hshows : ShowsNodes cpus (sys.nodes.getD [])) :
    ∃ found, listedNodes sys = .ok found ∧ ∀ node spec, (node, spec) ∈ found ↔
      ∃ i : ℕ, node = i ∧ spec = formatCpuList (cpus i) ∧ NodeShown cpus (sys.nodes.getD []) i := by
  unfold listedNodes
  cases hnodes : sys.nodes with
  | none =>
      refine ⟨[], rfl, fun node spec => ?_⟩
      simp [NodeShown]
  | some entries =>
      rw [hnodes] at hshows
      change ShowsNodes cpus entries at hshows
      set matching := entries.filter fun entry => isNodeEntry entry.1 with hmatching
      have hperm : (matching.insertionSort fun a b => a.1 ≤ b.1).Perm matching :=
        List.perm_insertionSort _ _
      have hmem : ∀ entry, entry ∈ (matching.insertionSort fun a b => a.1 ≤ b.1) ↔
          entry ∈ entries ∧ isNodeEntry entry.1 = true := by
        intro entry
        rw [hperm.mem_iff, hmatching, List.mem_filter]
      have hsorted : ShowsNodes cpus (matching.insertionSort fun a b => a.1 ≤ b.1) := by
        refine ⟨(hperm.map Prod.fst).nodup_iff.mpr ?_, fun entry hentry => hshows.own entry ?_⟩
        · exact hshows.distinct.sublist ((List.filter_sublist).map Prod.fst)
        · exact ((hmem entry).mp hentry).1
      have hnothing : ∀ i : ℕ, nodeName i ∈ (matching.insertionSort fun a b => a.1 ≤ b.1).map Prod.fst →
          (i : ℤ) ∉ ([] : List (ℤ × String)).map Prod.fst := fun i _ => List.not_mem_nil
      obtain ⟨found, hfound, hspec⟩ := nodesFrom_spec hnonneg hsorted
        (fun entry hentry => ((hmem entry).mp hentry).2) hnothing
      refine ⟨found, hfound, fun node spec => ?_⟩
      have hsame : ∀ i, NodeShown cpus (matching.insertionSort fun a b => a.1 ≤ b.1) i ↔
          NodeShown cpus entries i := by
        intro i
        simp only [NodeShown, hmem, isNodeEntry_nodeName, and_true]
      rw [hspec]
      simp [hsame]

/-- Where there is no affinity the CPUs are those that are counted. -/
theorem MayRunOn.counted (h : MayRunOn sys allowed) {e : Exc} (haffinity : sys.affinity = .error e) :
    (e.cls == .attributeError || e.cls.isOSError) = true ∧
      (span 0 (max 1 (sys.cpuCount.getD 1) - 1)).toFinset = allowed := by
  obtain ⟨hclass, hmem⟩ := h.unknown e haffinity
  constructor
  · rcases hclass with heq | hos
    · rw [heq]
      rfl
    · rw [hos, Bool.or_true]
  · ext c
    rw [List.mem_toFinset, mem_span, hmem]
    omega

theorem fallbackCpus_eq (h : MayRunOn sys allowed) : fallbackCpus sys = .ok allowed := by
  unfold fallbackCpus
  cases haffinity : sys.affinity with
  | ok cpus => rw [h.known cpus haffinity]
  | error e =>
      obtain ⟨hcaught, hcpus⟩ := h.counted haffinity
      simp only [hcaught, if_true, hcpus]

/-- What is detected are the nodes of the machine, each with the text of its CPUs. -/
theorem detect_spec (hnonneg : ∀ i, ∀ c ∈ cpus i, 0 ≤ c)
    (hshows : ShowsNodes cpus (sys.nodes.getD [])) (hallowed : MayRunOn sys allowed) :
    ∃ nodes, detect sys = .ok nodes ∧ ∀ node spec, (node, spec) ∈ nodes ↔
      ∃ cores, spec = formatCpuList cores ∧ MachineNode cpus allowed sys node cores := by
  obtain ⟨found, hfound, hmem⟩ := listedNodes_spec hnonneg hshows
  unfold detect
  rw [hfound]
  simp only [bind, Except.bind]
  by_cases hempty : found = []
  · have hnone : ∀ i, ¬ NodeShown cpus (sys.nodes.getD []) i := by
      intro i hshown
      have hin : ((i : ℤ), formatCpuList (cpus i)) ∈ found := (hmem _ _).mpr ⟨i, rfl, rfl, hshown⟩
      rw [hempty] at hin
      cases hin
    rw [if_neg (not_not.mpr hempty), fallbackCpus_eq hallowed]
    refine ⟨_, rfl, fun node spec => ?_⟩
    rw [List.mem_singleton]
    constructor
    · intro heq
      cases heq
      exact ⟨allowed, rfl, .inr ⟨rfl, rfl, hnone⟩⟩
    · rintro ⟨cores, rfl, ⟨i, -, -, hshown⟩ | ⟨rfl, rfl, -⟩⟩
      · exact absurd hshown (hnone i)
      · rfl
  · have hsome : ∃ i, NodeShown cpus (sys.nodes.getD []) i := by
      obtain ⟨⟨node, spec⟩, rest, hcons⟩ := List.exists_cons_of_ne_nil hempty
      have hin : (node, spec) ∈ found := by
        rw [hcons]
        exact List.mem_cons_self ..
      obtain ⟨i, -, -, hshown⟩ := (hmem node spec).mp hin
      exact ⟨i, hshown⟩
    rw [if_pos hempty]
    refine ⟨found, rfl, fun node spec => ?_⟩
    rw [hmem]
    constructor
    · rintro ⟨i, rfl, rfl, hshown⟩
      exact ⟨cpus i, rfl, .inl ⟨i, rfl, rfl, hshown⟩⟩
    · rintro ⟨cores, rfl, ⟨i, rfl, rfl, hshown⟩ | ⟨-, -, hnone⟩⟩
      · exact ⟨i, rfl, rfl, hshown⟩
      · obtain ⟨i, hshown⟩ := hsome
        exact absurd hshown (hnone i)

theorem MachineNode.nonneg (hnonneg : ∀ i, ∀ c ∈ cpus i, 0 ≤ c) (hallowed : MayRunOn sys allowed)
    {node : ℤ} {cores : Finset ℤ} (h : MachineNode cpus allowed sys node cores) :
    ∀ c ∈ cores, 0 ≤ c := by
  rcases h with ⟨i, -, rfl, -⟩ | ⟨-, rfl, -⟩
  · exact hnonneg i
  · exact hallowed.nonneg

/-- So every text reads back as the CPUs of its node, and the nodes listed are those of the
machine. -/
theorem listed_iff (hnonneg : ∀ i, ∀ c ∈ cpus i, 0 ≤ c) (hallowed : MayRunOn sys allowed)
    {nodes : List (ℤ × String)} (hnodes : ∀ node spec, (node, spec) ∈ nodes ↔
      ∃ cores, spec = formatCpuList cores ∧ MachineNode cpus allowed sys node cores) :
    (∀ entry ∈ nodes, ∃ cores, parseCpuList entry.2 = .ok cores) ∧
    ∀ node cores, Listed nodes node cores ↔ MachineNode cpus allowed sys node cores := by
  have hread : ∀ {node : ℤ} {cores : Finset ℤ}, MachineNode cpus allowed sys node cores →
      parseCpuList (formatCpuList cores) = .ok cores :=
    fun h => parse_format (h.nonneg hnonneg hallowed)
  refine ⟨fun ⟨node, spec⟩ hentry => ?_, fun node cores => ⟨?_, fun h => ?_⟩⟩
  · obtain ⟨cores, rfl, hnode⟩ := (hnodes node spec).mp hentry
    exact ⟨cores, hread hnode⟩
  · rintro ⟨spec, hentry, hspec⟩
    obtain ⟨cores', rfl, hnode⟩ := (hnodes node spec).mp hentry
    rw [hread hnode, Except.ok.injEq] at hspec
    exact hspec ▸ hnode
  · exact ⟨formatCpuList cores, (hnodes node _).mpr ⟨cores, rfl, h⟩, hread h⟩

end Detection

/-! ## The orchestrator -/

/-- The construction succeeds where all that it reads can be read. -/
theorem construct_eq (config : Config) (queue : List Job) {configured nodes : List (ℤ × String)}
    (which : String → Bool) (wideAlnum : Char → Bool) {sys : SysFs} {reserved secondary : Finset ℤ}
    (htmux : config.runner = "tmux" → which "tmux" = true)
    (hnodes : numaNodesResolved configured sys = .ok nodes)
    (hreserved : parseCpuList config.reservedCores = .ok reserved)
    (hsecondary : detectSmtSecondary sys.siblings = .ok secondary) :
    ∃ site, construct config queue configured which wideAlnum sys = .ok site ∧
      site.config = config ∧ site.queue = queue ∧ site.numaNodes = nodes ∧
      site.reserved = reserved ∧ site.smtSecondary = secondary ∧ site.wideAlnum = wideAlnum := by
  have hpath : ¬ (config.runner = "tmux" ∧ which "tmux" = false) := by
    rintro ⟨hrunner, hwhich⟩
    rw [htmux hrunner] at hwhich
    cases hwhich
  unfold construct
  rw [if_neg hpath]
  split
  · rename_i e he
    cases he.symm.trans hnodes
  · rename_i he
    cases he.symm.trans hreserved
  · rename_i he
    cases he.symm.trans hsecondary
  · rename_i nodes' reserved' secondary' hnodes' hreserved' hsecondary'
    cases hnodes'.symm.trans hnodes
    cases hreserved'.symm.trans hreserved
    cases hsecondary'.symm.trans hsecondary
    exact ⟨_, rfl, rfl, rfl, rfl, rfl, rfl, rfl⟩

/-- An orchestrator that is given no topology is constructed with that of the machine.  An allocation
never raises, and fails only when no node of the machine that passes the memory gate has the CPUs
free; and in every state of every run each running job holds as many CPUs of one node as it asks
for, none of them reserved and none held by another. -/
theorem detected_topology {W : Type} [Host W] {cpus : ℕ → Finset ℤ} {allowed threads : Finset ℤ}
    (P : Finpartition threads) (sys : SysFs) (siblings : List (Except Exc String))
    (hnonneg : ∀ i, ∀ c ∈ cpus i, 0 ≤ c) (hshows : ShowsNodes cpus (sys.nodes.getD []))
    (hallowed : MayRunOn sys allowed) (hsiblings : sys.siblings = some siblings)
    (hlists : Lists P siblings) (config : Config) (queue : List Job) (which : String → Bool)
    (wideAlnum : Char → Bool) (reserved : Finset ℤ)
    (htmux : config.runner = "tmux" → which "tmux" = true)
    (hreserved : parseCpuList config.reservedCores = .ok reserved) (hqueue : FreshQueue queue) :
    ∃ site, construct config queue [] which wideAlnum sys = .ok site ∧
      (∀ c, c ∈ site.smtSecondary ↔ Secondary P c) ∧
      (∀ (n : ℤ) (occupied : Finset ℤ) (options : AllocateOptions), 0 < n →
        ∃ result, allocate n occupied site.numaNodes options = .ok result ∧
          (result = none ↔ ∀ node cores, MachineNode cpus allowed sys node cores →
            options.PassesGate node → ((cores \ occupied).card : ℤ) < n) ∧
          ∀ placement, result = some placement → ∃ cores block,
            MachineNode cpus allowed sys placement.node cores ∧
            parseCpuList placement.cpuList = .ok block ∧ (block.card : ℤ) = n ∧
            block ⊆ cores \ occupied) ∧
      ∀ (gated : Bool) (s : Sys W), Reached site gated s →
        (∀ job ∈ s.jobs, job.status = .running → 0 < job.cores → ∃ cores,
          MachineNode cpus allowed sys job.numaNode cores ∧
          ((blockOf job).card : ℤ) = job.cores ∧ blockOf job ⊆ cores \ reserved) ∧
        ∀ (i j : ℕ) (a b : Job), i ≠ j → s.jobs[i]? = some a → s.jobs[j]? = some b →
          a.status = .running → b.status = .running → Disjoint (blockOf a) (blockOf b) := by
  obtain ⟨nodes, hdetect, hnodes⟩ := detect_spec hnonneg hshows hallowed
  obtain ⟨hparse, hlisted⟩ := listed_iff hnonneg hallowed hnodes
  obtain ⟨secondary, hsecondary, hthreads⟩ := detect_secondary hlists
  have hresolved : numaNodesResolved [] sys = .ok nodes := hdetect
  obtain ⟨site, hsite, hconfig, hjobs, hnuma, hkept, hsmt, -⟩ := construct_eq config queue which
    wideAlnum htmux hresolved hreserved (hsiblings ▸ hsecondary)
  refine ⟨site, hsite, fun c => ?_, fun n occupied options hpos => ?_, fun gated s hreached => ?_⟩
  · rw [hsmt]
    exact hthreads c
  · rw [hnuma]
    rcases exists_allocate hpos hparse with ⟨hnone, hfull⟩ | ⟨placement, cores, block, hsome, hbest⟩
    · refine ⟨none, hnone, iff_of_true rfl fun node cores hnode hgate => ?_, fun _ h => by cases h⟩
      by_contra hroom
      exact hfull node cores ⟨(hlisted node cores).mpr hnode, not_lt.mp hroom, hgate⟩
    · have hnode := (hlisted _ _).mp hbest.eligible.listed
      refine ⟨some placement, hsome, iff_of_false (by simp) fun h => ?_, ?_⟩
      · exact absurd hbest.eligible.room (not_le.mpr (h _ _ hnode hbest.eligible.gate))
      · rintro _ ⟨⟩
        exact ⟨cores, block, hnode, hbest.reads, hbest.count, hbest.inside⟩
  · have hexclusive := (hreached.jobs (J := Exclusive site) (hjobs ▸ hqueue).exclusive
      fun _ _ _ hturn => hturn.exclusive).1
    refine ⟨fun job hjob hrunning hcores => ?_, hexclusive.disjoint⟩
    have hholds := hexclusive.holds job hjob hrunning
    rw [Nodepilot.Holds, if_pos hcores, hnuma, hkept] at hholds
    obtain ⟨spec, cores, block, hentry, hspec, hblock, hcard, hinside, hapart⟩ := hholds
    rw [blockOf_eq hblock]
    exact ⟨cores, (hlisted _ _).mp ⟨spec, hentry, hspec⟩, hcard,
      Finset.subset_sdiff.mpr ⟨hinside, hapart⟩⟩

/-! ## Two nodes and one without CPUs -/

/-- The CPUs of the nodes. -/
def twoNodeCpus : ℕ → Finset ℤ
  | 0 => {0, 1, 2, 3}
  | 1 => {4, 5, 6, 7}
  | _ => ∅

/-- What is read there; the third node has memory only. -/
def twoNodes : SysFs where
  nodes := some [("has_cpu", .ok "0-1\n"), ("node1", .ok "4-7\n"), ("node0", .ok "0-3\n"),
    ("node2", .ok "\n")]
  siblings := some fourCoresEntries
  affinity := .ok {0, 1, 2, 3, 4, 5, 6, 7}
  cpuCount := some 8

theorem showsNodes_twoNodes : ShowsNodes twoNodeCpus (twoNodes.nodes.getD []) := by
  refine ⟨by decide, fun entry hentry hname => .inr ?_⟩
  simp only [twoNodes, Option.getD_some, List.mem_cons, List.not_mem_nil, or_false] at hentry
  rcases hentry with rfl | rfl | rfl | rfl
  · exact absurd hname (by decide)
  · exact ⟨1, by decide +kernel, .inl (by decide +kernel)⟩
  · exact ⟨0, by decide +kernel, .inl (by decide +kernel)⟩
  · exact ⟨2, by decide +kernel, .inl (by decide +kernel)⟩

theorem nonneg_twoNodeCpus (i : ℕ) : ∀ c ∈ twoNodeCpus i, 0 ≤ c := by
  unfold twoNodeCpus
  split <;> decide

theorem construct_twoNodes :
    construct smallConfig twoJobs [] (fun _ => false) (fun _ => false) twoNodes = .ok threadedSite := by
  have hnodes : numaNodesResolved [] twoNodes = .ok threadedSite.numaNodes := by decide +kernel
  have hsecondary : detectSmtSecondary twoNodes.siblings = .ok threadedSite.smtSecondary := by
    decide +kernel
  obtain ⟨site, hsite, hconfig, hqueue, hnuma, hreserved, hsmt, hwide⟩ :=
    construct_eq smallConfig twoJobs (fun _ => false) (fun _ => false) (by decide) hnodes
      reserved_smallConfig hsecondary
  rw [hsite]
  cases site
  simp_all [threadedSite, smallSite]

/-- Both jobs run there, each on CPUs of one of the nodes. -/
theorem detected_topology_twoNodes : ∃ s : Sys World,
    construct smallConfig twoJobs [] (fun _ => false) (fun _ => false) twoNodes = .ok threadedSite ∧
    s.jobs.map Job.status = [.running, .running] ∧
    ∀ job ∈ s.jobs, job.status = .running → 0 < job.cores → ∃ cores,
      MachineNode twoNodeCpus {0, 1, 2, 3, 4, 5, 6, 7} twoNodes job.numaNode cores ∧
      ((blockOf job).card : ℤ) = job.cores ∧ blockOf job ⊆ cores \ ∅ := by
  obtain ⟨changed, s, htick, hstatus⟩ := of_returns (show returns (tick threadedSite (fresh threadedSite {}))
      (fun s => s.jobs.map Job.status == [.running, .running]) = true by decide +kernel)
  have hallowed : MayRunOn twoNodes {0, 1, 2, 3, 4, 5, 6, 7} :=
    ⟨by decide, fun cpus h => by cases h; rfl, fun e h => by cases h⟩
  obtain ⟨site, hsite, -, -, hruns⟩ := detected_topology (W := World) fourCores twoNodes
    fourCoresEntries nonneg_twoNodeCpus showsNodes_twoNodes hallowed rfl lists_fourCores smallConfig
    twoJobs (fun _ => false) (fun _ => false) ∅ (by decide) reserved_smallConfig (by decide)
  obtain rfl : threadedSite = site := Except.ok.inj (construct_twoNodes.symm.trans hsite)
  exact ⟨s, construct_twoNodes, beq_iff_eq.mp hstatus, (hruns true s (reached_of_tick htick)).1⟩

end Nodepilot
