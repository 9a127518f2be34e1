import Mathlib

/-!
# Trees of lists and dictionaries

A document of one of the usual interchange formats is a tree: a node is a leaf, a
list, or a dictionary, whose branches have keys.  One format is written in another
by translating keys and leaves, which may fail, and is read back by translations
that do not fail; reading builds a dictionary branch by branch, and of two branches
with one key the later wins.

What survives the way there and back is what has keys and leaves that do
(`Coding.round_trip_iff`): where a key does not, some dictionary changes its keys.
-/

namespace Trees

/-! ## Dictionaries -/

section Dictionaries

variable {κ β γ : Type} [DecidableEq κ]

/-- `d[key] = value`: a key keeps its place. -/
def insert (key : κ) (value : β) : List (κ × β) → List (κ × β)
  | [] => [(key, value)]
  | (k, v) :: rest => if k = key then (k, value) :: rest else (k, v) :: insert key value rest

/-- A dictionary built branch by branch. -/
def dictOf (items : List (κ × β)) : List (κ × β) :=
  items.foldl (fun d item => insert item.1 item.2 d) []

theorem insert_of_notMem {key : κ} {d : List (κ × β)} (h : key ∉ d.map Prod.fst) (value : β) :
    insert key value d = d ++ [(key, value)] := by
  induction d with
  | nil => rfl
  | cons item rest ih =>
      obtain ⟨k, v⟩ := item
      have hhead : k ≠ key := fun heq => h (by simp [heq])
      have htail : key ∉ rest.map Prod.fst := fun hmem => h (List.mem_cons_of_mem _ hmem)
      rw [insert, if_neg hhead, ih htail, List.cons_append]

theorem mem_keys_insert {key k : κ} {value : β} {d : List (κ × β)}
    (h : k ∈ (insert key value d).map Prod.fst) : k = key ∨ k ∈ d.map Prod.fst := by
  induction d with
  | nil => simpa [insert] using h
  | cons item rest ih =>
      obtain ⟨k', v⟩ := item
      by_cases hk' : k' = key
      · rw [insert, if_pos hk'] at h
        exact Or.inr (by simpa using h)
      · rw [insert, if_neg hk', List.map_cons, List.mem_cons] at h
        rcases h with rfl | h
        · exact Or.inr (by simp)
        · exact (ih h).imp_right (List.mem_cons_of_mem _)

/-- Inserting makes no key occur twice. -/
theorem nodup_insert {d : List (κ × β)} (h : (d.map Prod.fst).Nodup) (key : κ) (value : β) :
    ((insert key value d).map Prod.fst).Nodup := by
  induction d with
  | nil => simp [insert]
  | cons item rest ih =>
      obtain ⟨k, v⟩ := item
      obtain ⟨hk, hrest⟩ := List.nodup_cons.mp h
      by_cases heq : k = key
      · rw [insert, if_pos heq]
        exact h
      · rw [insert, if_neg heq, List.map_cons, List.nodup_cons]
        refine ⟨fun hmem => ?_, ih hrest⟩
        rcases mem_keys_insert hmem with hkey | hold
        · exact heq hkey
        · exact hk hold

/-- Inserting touches only the branches that are kept, or none of them. -/
theorem filter_insert (p : κ → Bool) (key : κ) (value : β) (d : List (κ × β)) :
    (insert key value d).filter (fun item => p item.1) =
      if p key then insert key value (d.filter fun item => p item.1)
      else d.filter fun item => p item.1 := by
  induction d with
  | nil => cases hp : p key <;> simp [insert, hp]
  | cons item rest ih =>
      obtain ⟨k, v⟩ := item
      by_cases hk : k = key
      · subst hk
        cases hp : p k <;> simp [insert, hp]
      · rw [insert, if_neg hk, List.filter_cons, ih]
        cases hpk : p k <;> cases p key <;> simp [insert, hpk, hk]

theorem foldl_insert_of_nodup (items : List (κ × β)) (d : List (κ × β))
    (h : ((d ++ items).map Prod.fst).Nodup) :
    items.foldl (fun d item => insert item.1 item.2 d) d = d ++ items := by
  induction items generalizing d with
  | nil => simp
  | cons item rest ih =>
      have hnew : item.1 ∉ d.map Prod.fst := by
        rw [List.map_append, List.nodup_append] at h
        intro hmem
        exact h.2.2 _ hmem item.1 (by simp) rfl
      have hmove : d ++ item :: rest = d ++ [item] ++ rest := by simp
      rw [List.foldl_cons, insert_of_notMem hnew, ih _ (by rw [← hmove]; exact h), hmove]

/-- Branches with different keys are a dictionary already. -/
theorem dictOf_of_nodup {items : List (κ × β)} (h : (items.map Prod.fst).Nodup) :
    dictOf items = items := by
  simpa [dictOf] using foldl_insert_of_nodup items [] (by simpa using h)

theorem nodup_dictOf (items : List (κ × β)) : ((dictOf items).map Prod.fst).Nodup := by
  have hfold : ∀ (items d : List (κ × β)), (d.map Prod.fst).Nodup →
      ((items.foldl (fun d item => insert item.1 item.2 d) d).map Prod.fst).Nodup := by
    intro items
    induction items with
    | nil => exact fun d hd => hd
    | cons item rest ih => exact fun d hd => ih _ (nodup_insert hd item.1 item.2)
  exact hfold items [] List.nodup_nil

/-- Branches that are dropped anyway need not be inserted. -/
theorem filter_dictOf (p : κ → Bool) (items : List (κ × β)) :
    (dictOf items).filter (fun item => p item.1) =
      dictOf (items.filter fun item => p item.1) := by
  have hfold : ∀ (items d : List (κ × β)),
      (items.foldl (fun d item => insert item.1 item.2 d) d).filter (fun item => p item.1) =
        (items.filter fun item => p item.1).foldl (fun d item => insert item.1 item.2 d)
          (d.filter fun item => p item.1) := by
    intro items
    induction items with
    | nil => exact fun d => rfl
    | cons item rest ih =>
        intro d
        rw [List.foldl_cons, ih, filter_insert, List.filter_cons]
        cases p item.1 <;> simp
  exact hfold items []

end Dictionaries

/-! ## Lists of the same length -/

section Lists

variable {β γ : Type} {R : β → γ → Prop}

theorem forall₂_and_map_eq {g : γ → β} {xs : List β} {ys : List γ} :
    (List.Forall₂ R xs ys ∧ ys.map g = xs) ↔ List.Forall₂ (fun x y => R x y ∧ g y = x) xs ys := by
  induction ys generalizing xs with
  | nil => cases xs <;> simp
  | cons y rest ih =>
      cases xs with
      | nil => simp
      | cons x xs' =>
          simp only [List.forall₂_cons, List.map_cons, List.cons.injEq, ← ih]
          tauto

theorem eq_map_of_forall₂ {f : β → γ} {xs : List β} {ys : List γ} (h : List.Forall₂ R xs ys)
    (hR : ∀ x y, R x y → y = f x) : ys = xs.map f := by
  induction h with
  | nil => rfl
  | cons hhead _ ih => rw [List.map_cons, hR _ _ hhead, ih]

theorem exists_of_forall₂ {xs : List β} {ys : List γ} (h : List.Forall₂ R xs ys) {y : γ}
    (hy : y ∈ ys) : ∃ x ∈ xs, R x y := by
  induction h with
  | nil => cases hy
  | cons hhead _ ih =>
      rcases List.mem_cons.mp hy with rfl | hrest
      · exact ⟨_, List.mem_cons_self .., hhead⟩
      · obtain ⟨x, hx, hxy⟩ := ih hrest
        exact ⟨x, List.mem_cons_of_mem _ hx, hxy⟩

theorem exists_forall₂ {xs : List β} :
    (∃ ys, List.Forall₂ R xs ys) ↔ ∀ x ∈ xs, ∃ y, R x y := by
  induction xs with
  | nil => simp
  | cons x rest ih =>
      rw [List.forall_mem_cons, ← ih]
      constructor
      · rintro ⟨ys, hys⟩
        cases hys with
        | cons hhead htail => exact ⟨⟨_, hhead⟩, _, htail⟩
      · rintro ⟨⟨y, hy⟩, ys, hys⟩
        exact ⟨y :: ys, .cons hy hys⟩

end Lists

/-! ## Trees -/

/-- A tree with leaves of `α` and branches with keys of `κ`. -/
inductive Tree (κ α : Type)
  | leaf (a : α)
  | list (items : List (Tree κ α))
  | dict (items : List (κ × Tree κ α))

namespace Tree

variable {κ α : Type}

/-- Induction on a tree, from the members of a list or a dictionary to the whole. -/
@[elab_as_elim]
theorem ind {P : Tree κ α → Prop} (leaf : ∀ a, P (.leaf a))
    (list : ∀ items : List (Tree κ α), (∀ t ∈ items, P t) → P (.list items))
    (dict : ∀ items : List (κ × Tree κ α), (∀ item ∈ items, P item.2) → P (.dict items))
    (t : Tree κ α) : P t :=
  @Tree.rec κ α P (fun items => ∀ t ∈ items, P t) (fun items => ∀ item ∈ items, P item.2)
    (fun item => P item.2) leaf list dict nofun
    (fun _ _ hhead htail => List.forall_mem_cons.mpr ⟨hhead, htail⟩) nofun
    (fun _ _ hhead htail => List.forall_mem_cons.mpr ⟨hhead, htail⟩) (fun _ _ h => h) t

mutual

/-- Every leaf satisfies `Q`, and the keys of every dictionary satisfy `N` together. -/
def Every (Q : α → Prop) (N : List κ → Prop) : Tree κ α → Prop
  | .leaf a => Q a
  | .list items => EveryItem Q N items
  | .dict items => N (items.map Prod.fst) ∧ EveryBranch Q N items

def EveryItem (Q : α → Prop) (N : List κ → Prop) : List (Tree κ α) → Prop
  | [] => True
  | t :: rest => t.Every Q N ∧ EveryItem Q N rest

def EveryBranch (Q : α → Prop) (N : List κ → Prop) : List (κ × Tree κ α) → Prop
  | [] => True
  | (_, t) :: rest => t.Every Q N ∧ EveryBranch Q N rest

end

variable {Q : α → Prop} {N : List κ → Prop}

@[simp] theorem every_leaf (a : α) : (leaf a : Tree κ α).Every Q N ↔ Q a := by
  rw [Every]

@[simp] theorem every_list (items : List (Tree κ α)) :
    (list items).Every Q N ↔ ∀ t ∈ items, t.Every Q N := by
  rw [Every]
  induction items with
  | nil => simp [EveryItem]
  | cons t rest ih => rw [EveryItem, ih, List.forall_mem_cons]

@[simp] theorem every_dict (items : List (κ × Tree κ α)) :
    (dict items).Every Q N ↔ N (items.map Prod.fst) ∧ ∀ item ∈ items, item.2.Every Q N := by
  have hbranches : EveryBranch Q N items ↔ ∀ item ∈ items, item.2.Every Q N := by
    induction items with
    | nil => simp [EveryBranch]
    | cons item rest ih =>
        obtain ⟨k, t⟩ := item
        rw [EveryBranch, ih, List.forall_mem_cons]
  rw [Every, hbranches]

theorem Every.mono {Q' : α → Prop} {N' : List κ → Prop} (hQ : ∀ a, Q a → Q' a)
    (hN : ∀ ks, N ks → N' ks) (t : Tree κ α) (h : t.Every Q N) : t.Every Q' N' := by
  induction t using ind with
  | leaf a => exact (every_leaf a).mpr (hQ a ((every_leaf a).mp h))
  | list items ih =>
      rw [every_list] at h ⊢
      exact fun t ht => ih t ht (h t ht)
  | dict items ih =>
      rw [every_dict] at h ⊢
      exact ⟨hN _ h.1, fun item hitem => ih item hitem (h.2 item hitem)⟩

/-- All keys in a tree are different where they branch off together. -/
def Distinct (t : Tree κ α) : Prop :=
  t.Every (fun _ => True) List.Nodup

end Tree

/-! ## Codings -/

/-- Translations of keys and leaves, there and back.  What has come back goes there again. -/
structure Coding (κ α κ' α' ε : Type) where
  key : κ → Except ε κ'
  leaf : α → Except ε α'
  keyBack : κ' → κ
  leafBack : α' → α
  key_keyBack : ∀ k, key (keyBack k) = .ok k

namespace Coding

variable {κ α κ' α' ε : Type} (c : Coding κ α κ' α' ε)

mutual

/-- A tree in the other format; the first key or leaf that has no translation ends it. -/
def encode : Tree κ α → Except ε (Tree κ' α')
  | .leaf a => .leaf <$> c.leaf a
  | .list items => .list <$> encodeItems items
  | .dict items => .dict <$> encodeBranches items

def encodeItems : List (Tree κ α) → Except ε (List (Tree κ' α'))
  | [] => pure []
  | t :: rest => do
      let u ← encode t
      let us ← encodeItems rest
      pure (u :: us)

def encodeBranches : List (κ × Tree κ α) → Except ε (List (κ' × Tree κ' α'))
  | [] => pure []
  | (k, t) :: rest => do
      let k' ← c.key k
      let u ← encode t
      let us ← encodeBranches rest
      pure ((k', u) :: us)

end

variable [DecidableEq κ']

mutual

/-- A tree of the other format, read back. -/
def decode : Tree κ' α' → Tree κ α
  | .leaf a => .leaf (c.leafBack a)
  | .list items => .list (decodeItems items)
  | .dict items => .dict ((dictOf (decodeBranches items)).map fun item => (c.keyBack item.1, item.2))

def decodeItems : List (Tree κ' α') → List (Tree κ α)
  | [] => []
  | t :: rest => decode t :: decodeItems rest

def decodeBranches : List (κ' × Tree κ' α') → List (κ' × Tree κ α)
  | [] => []
  | (k, t) :: rest => (k, decode t) :: decodeBranches rest

end

/-- The key survives the way there and back. -/
def KeepsKey (k : κ) : Prop :=
  ∃ k', c.key k = .ok k' ∧ c.keyBack k' = k

/-- The leaf survives the way there and back. -/
def KeepsLeaf (a : α) : Prop :=
  ∃ a', c.leaf a = .ok a' ∧ c.leafBack a' = a

/-! ### One level -/

theorem map_eq_ok {β γ : Type} {f : β → γ} {x : Except ε β} {y : γ} :
    f <$> x = .ok y ↔ ∃ b, x = .ok b ∧ f b = y := by
  cases x with
  | error e => simp [Functor.map, Except.map]
  | ok b => simp [Functor.map, Except.map]

theorem bind_eq_ok {β γ : Type} {f : β → Except ε γ} {x : Except ε β} {y : γ} :
    x >>= f = .ok y ↔ ∃ b, x = .ok b ∧ f b = .ok y := by
  cases x with
  | error e => simp [bind, Except.bind]
  | ok b => simp [bind, Except.bind]

theorem mapM_eq_ok {β γ : Type} {f : β → Except ε γ} {xs : List β} {ys : List γ} :
    xs.mapM f = .ok ys ↔ List.Forall₂ (fun x y => f x = .ok y) xs ys := by
  induction xs generalizing ys with
  | nil => cases ys <;> simp [pure, Except.pure]
  | cons x rest ih =>
      simp only [List.mapM_cons, bind_eq_ok, pure, Except.pure, Except.ok.injEq]
      constructor
      · rintro ⟨y, hy, ys', hys, rfl⟩
        exact .cons hy (ih.mp hys)
      · intro h
        cases h with
        | cons hy hys => exact ⟨_, hy, _, ih.mpr hys, rfl⟩

omit [DecidableEq κ'] in
theorem encodeItems_eq_ok {items : List (Tree κ α)} {us : List (Tree κ' α')} :
    c.encodeItems items = .ok us ↔ List.Forall₂ (fun t u => c.encode t = .ok u) items us := by
  induction items generalizing us with
  | nil => cases us <;> simp [encodeItems, pure, Except.pure]
  | cons t rest ih =>
      simp only [encodeItems, bind_eq_ok, pure, Except.pure, Except.ok.injEq]
      constructor
      · rintro ⟨u, hu, us', hus, rfl⟩
        exact .cons hu (ih.mp hus)
      · intro h
        cases h with
        | cons hu hus => exact ⟨_, hu, _, ih.mpr hus, rfl⟩

omit [DecidableEq κ'] in
theorem encodeBranches_eq_ok {items : List (κ × Tree κ α)} {us : List (κ' × Tree κ' α')} :
    c.encodeBranches items = .ok us ↔
      List.Forall₂ (fun item u => c.key item.1 = .ok u.1 ∧ c.encode item.2 = .ok u.2) items us := by
  induction items generalizing us with
  | nil => cases us <;> simp [encodeBranches, pure, Except.pure]
  | cons item rest ih =>
      obtain ⟨k, t⟩ := item
      simp only [encodeBranches, bind_eq_ok, pure, Except.pure, Except.ok.injEq]
      constructor
      · rintro ⟨k', hk, u, hu, us', hus, rfl⟩
        exact .cons ⟨hk, hu⟩ (ih.mp hus)
      · intro h
        cases h with
        | cons hu hus => exact ⟨_, hu.1, _, hu.2, _, ih.mpr hus, rfl⟩

theorem decodeItems_eq_map (items : List (Tree κ' α')) :
    c.decodeItems items = items.map c.decode := by
  induction items with
  | nil => rfl
  | cons t rest ih => rw [decodeItems, ih, List.map_cons]

theorem decodeBranches_eq_map (items : List (κ' × Tree κ' α')) :
    c.decodeBranches items = items.map fun item => (item.1, c.decode item.2) := by
  induction items with
  | nil => rfl
  | cons item rest ih => rw [decodeBranches, ih, List.map_cons]

/-! ### There and back -/

/-- What a tree is read back from. -/
def RoundTrips (t : Tree κ α) : Prop :=
  ∃ u, c.encode t = .ok u ∧ c.decode u = t

theorem roundTrips_leaf (a : α) : c.RoundTrips (.leaf a) ↔ c.KeepsLeaf a := by
  simp only [RoundTrips, encode, map_eq_ok]
  constructor
  · rintro ⟨u, ⟨a', ha', rfl⟩, hback⟩
    exact ⟨a', ha', by simpa [decode] using hback⟩
  · rintro ⟨a', ha', hback⟩
    exact ⟨_, ⟨a', ha', rfl⟩, by rw [decode, hback]⟩

theorem roundTrips_list (items : List (Tree κ α)) :
    c.RoundTrips (.list items) ↔ ∀ t ∈ items, c.RoundTrips t := by
  have hlevel : c.RoundTrips (.list items) ↔
      ∃ us, List.Forall₂ (fun t u => c.encode t = .ok u) items us ∧ us.map c.decode = items := by
    simp only [RoundTrips, encode, map_eq_ok, encodeItems_eq_ok]
    constructor
    · rintro ⟨u, ⟨us, hus, rfl⟩, hback⟩
      exact ⟨us, hus, by simpa [decode, decodeItems_eq_map] using hback⟩
    · rintro ⟨us, hus, hback⟩
      exact ⟨_, ⟨us, hus, rfl⟩, by rw [decode, decodeItems_eq_map, hback]⟩
  rw [hlevel]
  simp only [forall₂_and_map_eq]
  exact exists_forall₂

omit [DecidableEq κ'] in
/-- Where all keys survive, they do not fall together. -/
theorem nodup_of_keeps {items : List (κ × Tree κ α)} {us : List (κ' × Tree κ' α')}
    (hnodup : (items.map Prod.fst).Nodup) (hkeys : ∀ k ∈ items.map Prod.fst, c.KeepsKey k)
    (hus : List.Forall₂ (fun item u => c.key item.1 = .ok u.1 ∧ c.encode item.2 = .ok u.2)
      items us) : (us.map Prod.fst).Nodup := by
  have hback : (us.map Prod.fst).map c.keyBack = items.map Prod.fst := by
    clear hnodup
    induction hus with
    | nil => rfl
    | @cons item u items' us' hhead _ ih =>
        obtain ⟨k', hk', hkept⟩ := hkeys item.1 (List.mem_cons_self ..)
        have hsame : u.1 = k' := Except.ok.inj (hhead.1.symm.trans hk')
        simp only [List.map_cons]
        rw [hsame, hkept, ih fun k hk => hkeys k (List.mem_cons_of_mem _ hk)]
  exact List.Nodup.of_map c.keyBack (by rw [hback]; exact hnodup)

theorem roundTrips_dict {items : List (κ × Tree κ α)} (h : (items.map Prod.fst).Nodup) :
    c.RoundTrips (.dict items) ↔
      (∀ k ∈ items.map Prod.fst, c.KeepsKey k) ∧ ∀ item ∈ items, c.RoundTrips item.2 := by
  have hlevel : c.RoundTrips (.dict items) ↔
      ∃ us : List (κ' × Tree κ' α'),
        List.Forall₂ (fun item u => c.key item.1 = .ok u.1 ∧ c.encode item.2 = .ok u.2)
          items us ∧
        (dictOf (us.map fun u => (u.1, c.decode u.2))).map
          (fun item => (c.keyBack item.1, item.2)) = items := by
    simp only [RoundTrips, encode, map_eq_ok, encodeBranches_eq_ok]
    constructor
    · rintro ⟨u, ⟨us, hus, rfl⟩, hback⟩
      exact ⟨us, hus, by simpa [decode, decodeBranches_eq_map] using hback⟩
    · rintro ⟨us, hus, hback⟩
      exact ⟨_, ⟨us, hus, rfl⟩, by rw [decode, decodeBranches_eq_map, hback]⟩
  -- once no two keys fall together, reading keeps all branches
  have hread : ∀ us : List (κ' × Tree κ' α'), (us.map Prod.fst).Nodup →
      (dictOf (us.map fun u => (u.1, c.decode u.2))).map
          (fun item => (c.keyBack item.1, item.2)) =
        us.map fun u => (c.keyBack u.1, c.decode u.2) := by
    intro us hus
    rw [dictOf_of_nodup (by simpa [List.map_map, Function.comp_def] using hus), List.map_map]
    rfl
  rw [hlevel]
  constructor
  · rintro ⟨us, hus, hback⟩
    have hkeys : ∀ k ∈ items.map Prod.fst, c.KeepsKey k := by
      intro k hk
      rw [← hback, List.map_map] at hk
      obtain ⟨item, -, rfl⟩ := List.mem_map.mp hk
      exact ⟨item.1, c.key_keyBack item.1, rfl⟩
    rw [hread us (c.nodup_of_keeps h hkeys hus)] at hback
    refine ⟨hkeys, fun item hitem => ?_⟩
    obtain ⟨u, ⟨-, hu⟩, heq⟩ :=
      exists_forall₂.mp ⟨us, forall₂_and_map_eq.mp ⟨hus, hback⟩⟩ item hitem
    exact ⟨u.2, hu, congrArg Prod.snd heq⟩
  · rintro ⟨hkeys, hitems⟩
    have hbranches : ∀ item ∈ items, ∃ u : κ' × Tree κ' α',
        (c.key item.1 = .ok u.1 ∧ c.encode item.2 = .ok u.2) ∧
          (c.keyBack u.1, c.decode u.2) = item := by
      intro item hitem
      obtain ⟨k', hk', hkept⟩ := hkeys item.1 (List.mem_map_of_mem hitem)
      obtain ⟨u, hu, hback⟩ := hitems item hitem
      exact ⟨(k', u), ⟨hk', hu⟩, Prod.ext hkept hback⟩
    obtain ⟨us, hus⟩ := exists_forall₂.mpr hbranches
    obtain ⟨hus, hback⟩ := forall₂_and_map_eq.mpr hus
    exact ⟨us, hus, by rw [hread us (c.nodup_of_keeps h hkeys hus), hback]⟩

/-- A tree survives if and only if all its keys and leaves do. -/
theorem round_trip_iff {t : Tree κ α} (h : t.Distinct) :
    c.RoundTrips t ↔ t.Every c.KeepsLeaf (fun ks => ∀ k ∈ ks, c.KeepsKey k) := by
  induction t using Tree.ind with
  | leaf a => rw [roundTrips_leaf, Tree.every_leaf]
  | list items ih =>
      have hitems := (Tree.every_list items).mp h
      rw [roundTrips_list, Tree.every_list]
      exact forall₂_congr fun t ht => ih t ht (hitems t ht)
  | dict items ih =>
      obtain ⟨hnodup, hitems⟩ := (Tree.every_dict items).mp h
      rw [c.roundTrips_dict hnodup, Tree.every_dict]
      exact and_congr_right fun _ => forall₂_congr fun item hitem => ih item hitem (hitems item hitem)

end Coding

end Trees
