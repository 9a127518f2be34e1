import Mathlib

/-!
# Walks that cannot go on for ever

In a finite set of nodes every one of which is a place to halt at or has an edge
to another of the set, a walk along the edges comes to a halt or back to where it
has been: a `Walk` visits nodes of the set only, each once, and its last node
halts or has an edge back to a node of the walk.
-/

namespace Walks

variable {α : Type}

/-- A walk from a node along edges, inside a set, to where it halts or closes a cycle. -/
structure Walk (inside : α → Prop) (edge : α → α → Prop) (halts : α → Prop) (a : α)
    (path : List α) : Prop where
  head : path.head? = some a
  chain : path.IsChain edge
  inside : ∀ b ∈ path, inside b
  ends : ∃ z, path.getLast? = some z ∧ (halts z ∨ ∃ b ∈ path, edge z b)

namespace Walk

variable {inside : α → Prop} {edge : α → α → Prop} {halts : α → Prop} {a b : α} {path : List α}

theorem single (ha : inside a) (hend : halts a ∨ edge a a) : Walk inside edge halts a [a] where
  head := rfl
  chain := .singleton a
  inside := by
    intro b hb
    rw [List.mem_singleton.mp hb]
    exact ha
  ends := by
    refine ⟨a, rfl, ?_⟩
    rcases hend with hhalts | hloop
    · exact Or.inl hhalts
    · exact Or.inr ⟨a, List.mem_singleton_self a, hloop⟩

/-- A walk may begin a step earlier; what was an edge back to the new node closes a cycle. -/
theorem cons (ha : inside a) (hedge : edge a b)
    (h : Walk inside edge (fun z => halts z ∨ edge z a) b path) :
    Walk inside edge halts a (a :: path) where
  head := rfl
  chain := by
    rw [List.isChain_cons]
    refine ⟨fun c hc => ?_, h.chain⟩
    rw [h.head] at hc
    cases hc
    exact hedge
  inside := by
    intro c hc
    rcases List.mem_cons.mp hc with rfl | hc
    · exact ha
    · exact h.inside c hc
  ends := by
    obtain ⟨z, hz, hend⟩ := h.ends
    refine ⟨z, ?_, ?_⟩
    · rw [List.getLast?_cons, hz]
      rfl
    · rcases hend with (hhalts | hback) | ⟨c, hc, hcycle⟩
      · exact Or.inl hhalts
      · exact Or.inr ⟨a, List.mem_cons_self .., hback⟩
      · exact Or.inr ⟨c, List.mem_cons_of_mem a hc, hcycle⟩

theorem mono {inside' : α → Prop} (hinside : ∀ c, inside c → inside' c)
    (h : Walk inside edge halts a path) : Walk inside' edge halts a path :=
  ⟨h.head, h.chain, fun c hc => hinside c (h.inside c hc), h.ends⟩

end Walk

/-- From every node there is a walk. -/
theorem exists_walk [DecidableEq α] {edge : α → α → Prop} (nodes : Finset α) (halts : α → Prop)
    (hnext : ∀ a ∈ nodes, halts a ∨ ∃ b ∈ nodes, edge a b) {a : α} (ha : a ∈ nodes) :
    ∃ path, Walk (· ∈ nodes) edge halts a path := by
  -- by induction on the nodes not yet visited; an edge back to a visited one counts as a halt
  induction nodes using Finset.strongInduction generalizing halts a with
  | H nodes ih =>
      rcases hnext a ha with hhalts | ⟨b, hb, hedge⟩
      · exact ⟨[a], .single ha (Or.inl hhalts)⟩
      · by_cases hba : b = a
        · rw [hba] at hedge
          exact ⟨[a], .single ha (Or.inr hedge)⟩
        · have hrest : ∀ c ∈ nodes.erase a,
              (halts c ∨ edge c a) ∨ ∃ d ∈ nodes.erase a, edge c d := by
            intro c hc
            rcases hnext c (Finset.mem_of_mem_erase hc) with hhalts | ⟨d, hd, hcd⟩
            · exact Or.inl (Or.inl hhalts)
            · by_cases hda : d = a
              · rw [hda] at hcd
                exact Or.inl (Or.inr hcd)
              · exact Or.inr ⟨d, Finset.mem_erase.mpr ⟨hda, hd⟩, hcd⟩
          obtain ⟨path, hpath⟩ := ih (nodes.erase a) (Finset.erase_ssubset ha) _ hrest
            (Finset.mem_erase.mpr ⟨hba, hb⟩)
          exact ⟨a :: path, .cons ha hedge
            (hpath.mono fun c hc => Finset.mem_of_mem_erase hc)⟩

end Walks
