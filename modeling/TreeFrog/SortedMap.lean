import Mathlib.Data.List.Sort

/-!
Maps as lists of keys and values, ascending in the keys.

Entries put into an empty map one after the other come out sorted by their keys, whatever their
order was.
-/

namespace TreeFrog.SortedMap

variable {K V W : Type*} [LinearOrder K] {k : K} {v : V} {m es : List (K × V)}

/-- Sets the value of a key. -/
def insert (k : K) (v : V) : List (K × V) → List (K × V)
  | [] => [(k, v)]
  | (l, w) :: m =>
    if k < l then (k, v) :: (l, w) :: m
    else if k = l then (k, v) :: m
    else (l, w) :: insert k v m

/-- The value of a key. -/
def find (m : List (K × V)) (k : K) : Option V := (m.find? fun e => e.1 = k).map Prod.snd

/-- Removes a key. -/
def erase (k : K) (m : List (K × V)) : List (K × V) := m.filter fun e => e.1 ≠ k

/-- Changes the values, and removes the entries without a new one. -/
def filterMapValues (g : V → Option W) (m : List (K × V)) : List (K × W) :=
  m.filterMap fun e => (g e.2).map fun w => (e.1, w)

/-- Adds a value to those of a key, before them. -/
def insertMulti (k : K) (v : V) (m : List (K × V)) : List (K × V) :=
  m.orderedInsert (fun a b => a.1 ≤ b.1) (k, v)

/-- Adds the entries of `n` to those of `m`, the last one first. -/
def unite (m n : List (K × V)) : List (K × V) := n.foldr (fun e m => insertMulti e.1 e.2 m) m

/-- The map that these entries make, the later ones replacing the earlier. -/
def ofList (es : List (K × V)) : List (K × V) := es.foldl (fun m e => insert e.1 e.2 m) []

def keys (m : List (K × V)) : List K := m.map Prod.fst

def values (m : List (K × V)) : List V := m.map Prod.snd

/-- The entries in the order of their keys. -/
def byKey (es : List (K × V)) : List (K × V) := es.insertionSort fun a b => a.1 ≤ b.1

def Ascending (m : List (K × V)) : Prop := m.Pairwise fun a b => a.1 < b.1

instance (m : List (K × V)) : Decidable (Ascending m) :=
  inferInstanceAs (Decidable (m.Pairwise fun a b => a.1 < b.1))

/-! ### One key -/

lemma insert_perm (h : k ∉ keys m) (v : V) : (insert k v m).Perm ((k, v) :: m) := by
  induction m with
  | nil => exact .refl _
  | cons e m ih =>
    obtain ⟨l, w⟩ := e
    rw [keys, List.map_cons, List.mem_cons, not_or] at h
    rw [insert]
    split_ifs with hlt heq
    · exact .refl _
    · exact absurd heq h.1
    · exact ((ih h.2).cons _).trans (.swap _ _ _)

lemma fst_mem_insert {e : K × V} (h : e ∈ insert k v m) : e = (k, v) ∨ e ∈ m := by
  induction m with
  | nil => exact .inl (List.mem_singleton.mp h)
  | cons d m ih =>
    obtain ⟨l, w⟩ := d
    rw [insert] at h
    split_ifs at h with hlt heq
    · exact List.mem_cons.mp h
    · exact (List.mem_cons.mp h).imp_right (List.mem_cons_of_mem _)
    · rcases List.mem_cons.mp h with rfl | h
      · exact .inr List.mem_cons_self
      · exact (ih h).imp_right (List.mem_cons_of_mem _)

lemma Ascending.insert (h : Ascending m) (k : K) (v : V) : Ascending (insert k v m) := by
  induction m with
  | nil => exact List.pairwise_singleton _ _
  | cons e m ih =>
    obtain ⟨l, w⟩ := e
    have hm := List.pairwise_cons.mp h
    rw [SortedMap.insert]
    split_ifs with hlt heq
    · refine List.pairwise_cons.mpr ⟨fun e he => ?_, h⟩
      rcases List.mem_cons.mp he with rfl | he
      · exact hlt
      · exact hlt.trans (hm.1 e he)
    · subst heq
      exact List.pairwise_cons.mpr hm
    · refine List.pairwise_cons.mpr ⟨fun e he => ?_, ih hm.2⟩
      rcases fst_mem_insert he with rfl | he
      · exact lt_of_le_of_ne (not_lt.mp hlt) (Ne.symm heq)
      · exact hm.1 e he

lemma insert_last (h : ∀ e ∈ m, e.1 < k) (v : V) : insert k v m = m ++ [(k, v)] := by
  induction m with
  | nil => rfl
  | cons e m ih =>
    obtain ⟨l, w⟩ := e
    have hl : l < k := h (l, w) List.mem_cons_self
    rw [insert, if_neg hl.not_gt, if_neg hl.ne', ih fun e he => h e (List.mem_cons_of_mem _ he),
      List.cons_append]

@[simp] lemma find_nil (j : K) : find ([] : List (K × V)) j = none := rfl

lemma find_cons (e : K × V) (m : List (K × V)) (j : K) :
    find (e :: m) j = if e.1 = j then some e.2 else find m j := by
  rw [find, List.find?_cons]
  split_ifs with h
  · simp [h]
  · simp [h, find]

lemma find_insert (k : K) (v : V) (m : List (K × V)) (j : K) :
    find (insert k v m) j = if k = j then some v else find m j := by
  induction m with
  | nil => rw [insert, find_cons]
  | cons e m ih =>
    obtain ⟨l, w⟩ := e
    rw [insert]
    rcases lt_trichotomy k l with hlt | rfl | hlt
    · rw [if_pos hlt, find_cons]
    · rw [if_neg (lt_irrefl k), if_pos rfl, find_cons, find_cons]
      split_ifs <;> rfl
    · rw [if_neg hlt.not_gt, if_neg hlt.ne', find_cons, ih, find_cons]
      by_cases hj : k = j
      · subst hj
        simp [hlt.ne]
      · simp [hj]

lemma find_erase (k : K) (m : List (K × V)) (j : K) :
    find (erase k m) j = if k = j then none else find m j := by
  induction m with
  | nil => simp [erase]
  | cons e m ih =>
    rw [erase, List.filter_cons] at *
    split_ifs at ih ⊢ <;> simp_all [find_cons]

lemma Ascending.erase (h : Ascending m) (k : K) : Ascending (erase k m) := h.filter _

lemma perm_erase (h : Ascending m) (hf : find m k = some v) : m.Perm ((k, v) :: erase k m) := by
  induction m with
  | nil => simp at hf
  | cons e m ih =>
    obtain ⟨hlt, hm⟩ := List.pairwise_cons.mp h
    rw [find_cons] at hf
    rw [erase, List.filter_cons]
    split_ifs at hf with hk
    · obtain ⟨l, w⟩ := e
      obtain rfl := Option.some.inj hf
      have hrest : m.filter (fun e => e.1 ≠ k) = m :=
        List.filter_eq_self.mpr fun e he => by simpa using hk ▸ (hlt e he).ne'
      rw [if_neg (by simpa using hk), hrest, ← hk]
    · rw [if_pos (by simpa using hk)]
      exact ((ih hm hf).cons e).trans (.swap _ _ _)

lemma find_ne_none_iff_mem_keys {j : K} : find m j ≠ none ↔ j ∈ keys m := by
  simp [find, keys]

/-! ### Many keys -/

lemma find_eq_none_of_lt {j : K} (h : ∀ e ∈ m, j < e.1) : find m j = none := by
  by_contra hne
  obtain ⟨e, he, rfl⟩ := List.mem_map.mp (find_ne_none_iff_mem_keys.mp hne)
  exact lt_irrefl _ (h e he)

lemma find_filterMapValues (h : Ascending m) (g : V → Option W) (j : K) :
    find (filterMapValues g m) j = (find m j).bind g := by
  induction m with
  | nil => rfl
  | cons e m ih =>
    obtain ⟨hlt, hm⟩ := List.pairwise_cons.mp h
    specialize ih hm
    rw [filterMapValues] at ih ⊢
    rw [List.filterMap_cons, find_cons]
    cases hg : g e.2 with
    | none =>
      rw [Option.map_none, ih]
      split_ifs with hj
      · rw [find_eq_none_of_lt (hj ▸ hlt)]
        exact hg.symm
      · rfl
    | some w =>
      simp only [Option.map_some, find_cons]
      split_ifs with hj
      · exact hg.symm
      · exact ih

lemma Ascending.filterMapValues (h : Ascending m) (g : V → Option W) :
    Ascending (filterMapValues g m) := by
  refine List.Pairwise.filterMap _ (fun e d hlt e' he' d' hd' => ?_) h
  obtain ⟨w, -, rfl⟩ := Option.map_eq_some_iff.mp he'
  obtain ⟨w', -, rfl⟩ := Option.map_eq_some_iff.mp hd'
  exact hlt

lemma foldl_insert_of_ascending (h : Ascending (m ++ es)) :
    es.foldl (fun m e => insert e.1 e.2 m) m = m ++ es := by
  induction es generalizing m with
  | nil => exact (List.append_nil m).symm
  | cons e es ih =>
    have hlast : ∀ d ∈ m, d.1 < e.1 := fun d hd =>
      (List.pairwise_append.mp h).2.2 d hd e List.mem_cons_self
    rw [List.append_cons] at h
    rw [List.foldl_cons, insert_last hlast, ih h, List.append_assoc]
    rfl

/-- **Ascending entries** stay as they are. -/
theorem ofList_of_ascending (h : Ascending m) : ofList m = m :=
  foldl_insert_of_ascending (m := []) h

lemma foldl_insert_perm (h : (keys (m ++ es)).Nodup) :
    (es.foldl (fun m e => insert e.1 e.2 m) m).Perm (m ++ es) := by
  induction es generalizing m with
  | nil => exact .of_eq (List.append_nil m).symm
  | cons e es ih =>
    have hperm : (m ++ e :: es).Perm (insert e.1 e.2 m ++ es) := by
      refine List.perm_middle.trans ((insert_perm ?_ e.2).symm.append_right es)
      intro hmem
      rw [keys, List.map_append, List.map_cons] at h
      exact List.disjoint_of_nodup_append h hmem List.mem_cons_self
    rw [List.foldl_cons]
    exact (ih ((hperm.map Prod.fst).nodup h)).trans hperm.symm

lemma ofList_ascending (es : List (K × V)) : Ascending (ofList es) := by
  have hloop : ∀ (es m : List (K × V)), Ascending m →
      Ascending (es.foldl (fun m e => insert e.1 e.2 m) m) := by
    intro es
    induction es with
    | nil => exact fun m hm => hm
    | cons e es ih => exact fun m hm => ih _ (hm.insert e.1 e.2)
  exact hloop es [] List.Pairwise.nil

/-- **Entries with keys of their own** are sorted by them. -/
theorem ofList_eq_byKey (h : (keys es).Nodup) : ofList es = byKey es := by
  have hperm : (ofList es).Perm es := foldl_insert_perm (m := []) h
  have hsorted : (byKey es).Perm es := List.perm_insertionSort _ es
  have hanti : ∀ a b, a ∈ ofList es → b ∈ byKey es → a.1 ≤ b.1 → b.1 ≤ a.1 → a = b := by
    intro a b ha hb hab hba
    exact List.inj_on_of_nodup_map h (hperm.mem_iff.mp ha) (hsorted.mem_iff.mp hb)
      (le_antisymm hab hba)
  exact List.Perm.eq_of_pairwise hanti ((ofList_ascending es).imp fun hlt => hlt.le)
    (List.pairwise_insertionSort (fun a b : K × V => a.1 ≤ b.1) es) (hperm.trans hsorted.symm)

lemma byKey_eq_of_perm (h : es.Perm m) (hm : Ascending m) : byKey es = m := by
  have hsorted : (byKey es).Perm es := List.perm_insertionSort _ es
  have hnodup : (keys m).Nodup := List.pairwise_map.mpr (hm.imp fun hlt => hlt.ne)
  have hanti : ∀ a b, a ∈ byKey es → b ∈ m → a.1 ≤ b.1 → b.1 ≤ a.1 → a = b := by
    intro a b ha hb hab hba
    exact List.inj_on_of_nodup_map hnodup ((hsorted.trans h).mem_iff.mp ha) hb
      (le_antisymm hab hba)
  exact List.Perm.eq_of_pairwise hanti
    (List.pairwise_insertionSort (fun a b : K × V => a.1 ≤ b.1) es) (hm.imp fun hlt => hlt.le)
    (hsorted.trans h)

lemma foldl_insertMulti (es : List (K × V)) :
    es.foldl (fun m e => insertMulti e.1 e.2 m) [] = byKey es.reverse := by
  rw [← List.foldr_reverse]
  rfl

lemma Ascending.ext {n : List (K × V)} (hm : Ascending m) (hn : Ascending n)
    (h : ∀ k, find m k = find n k) : m = n := by
  induction m generalizing n with
  | nil =>
    cases n with
    | nil => rfl
    | cons e n => simpa [find_cons] using h e.1
  | cons d m ih =>
    cases n with
    | nil => simpa [find_cons] using h d.1
    | cons e n =>
      obtain ⟨hltm, hm⟩ := List.pairwise_cons.mp hm
      obtain ⟨hltn, hn⟩ := List.pairwise_cons.mp hn
      -- the lesser one of the two first keys would be missing in the other map
      have hkey : d.1 = e.1 := by
        rcases lt_trichotomy d.1 e.1 with hlt | heq | hlt
        · have hd := h d.1
          rw [find_cons, if_pos rfl, find_cons, if_neg hlt.ne',
            find_eq_none_of_lt fun x hx => hlt.trans (hltn x hx)] at hd
          cases hd
        · exact heq
        · have he := h e.1
          rw [find_cons, if_neg hlt.ne', find_cons, if_pos rfl,
            find_eq_none_of_lt fun x hx => hlt.trans (hltm x hx)] at he
          cases he
      have hvalue : d.2 = e.2 := by
        have hd := h d.1
        rw [find_cons, if_pos rfl, find_cons, if_pos hkey.symm] at hd
        exact Option.some.inj hd
      rw [Prod.ext hkey hvalue, ih hm hn fun k => ?_]
      by_cases hk : d.1 = k
      · rw [find_eq_none_of_lt (hk ▸ hltm), find_eq_none_of_lt ((hkey.symm.trans hk) ▸ hltn)]
      · have hrest := h k
        rwa [find_cons, if_neg hk, find_cons, if_neg (hkey ▸ hk)] at hrest

/-- **Uniting** keeps the entries of both maps. -/
lemma unite_perm (m n : List (K × V)) : (unite m n).Perm (n ++ m) := by
  induction n with
  | nil => exact .refl _
  | cons e n ih =>
    exact (List.perm_orderedInsert _ e (unite m n)).trans (ih.cons e)

end TreeFrog.SortedMap
