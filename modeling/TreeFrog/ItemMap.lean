import TreeFrog.Bson

/-!
`THttpRequest::itemMap`: the parameters `key[name]`, `key[name][]` and `key[name][name2]` of a form
as one map.
-/

namespace TreeFrog.ItemMap

open SortedMap
open Bson (QString QVariant QVariantMap)

abbrev OPEN : UInt16 := 91
abbrev CLOSE : UInt16 := 93

abbrev Items := List (QString × QString)

def isBracket (c : UInt16) : Bool := c = OPEN || c = CLOSE

/-- What stands in brackets at the beginning of a text, and what follows. -/
def bracket : List UInt16 → Option (List UInt16 × List UInt16)
  | [] => none
  | c :: t =>
    if c = OPEN then
      match t.dropWhile fun c => !isBracket c with
      | [] => none
      | d :: rest => if d = CLOSE then some (t.takeWhile fun c => !isBracket c, rest) else none
    else none

/-- What stands behind the key. -/
def behind (key name : QString) : Option (List UInt16) :=
  if key.units.isPrefixOf name.units then some (name.units.drop key.units.length) else none

/-- The capture of `rx`, when it matches all of the name. -/
def rx (key name : QString) : Option QString := do
  let (k, rest) ← bracket (← behind key name)
  if k = [] ∨ rest ≠ [] then none else some ⟨k⟩

/-- The captures of `rx2`, when it matches all of the name. -/
def rx2 (key name : QString) : Option (QString × QString) := do
  let (k1, rest) ← bracket (← behind key name)
  let (k2, rest) ← bracket rest
  if k1 = [] ∨ rest ≠ [] then none else some (⟨k1⟩, ⟨k2⟩)

/-- `QVariant::toList` and `QVariant::toMap`; the value of a missing key is invalid. -/
def toList : Option QVariant → List QVariant
  | some (.list l) => l
  | _ => []

def toMap : Option QVariant → QVariantMap
  | some (.map m) => m
  | _ => []

/-- One turn of the loop. -/
def addItem (key : QString) (map : QVariantMap) (p : QString × QString) : QVariantMap :=
  match rx key p.1 with
  | some k => insert k (.string p.2) map
  | none =>
    match rx2 key p.1 with
    | some (k1, k2) =>
      let v := find map k1
      if k2.units.isEmpty then insert k1 (.list (toList v ++ [.string p.2])) map
      else insert k1 (.map (insertMulti k2 (.string p.2) (toMap v))) map
    | none => map

def itemMap (key : QString) (items : Items) : QVariantMap := items.foldl (addItem key) []

/-! ### Parameters -/

/-- What a name of the map has. -/
inductive Param where
  | single (v : QString)
  | list (vs : List QString)
  | map (es : List (QString × QString))

def Param.value : Param → QVariant
  | .single v => .string v
  | .list vs => .list (vs.map .string)
  | .map es => .map (es.map fun e => (e.1, .string e.2))

/-- A name in brackets behind a key. -/
def sub (key name : QString) : QString := ⟨key.units ++ OPEN :: (name.units ++ [CLOSE])⟩

/-- The items of a parameter. -/
def Param.items (key name : QString) : Param → Items
  | .single v => [(sub key name, v)]
  | .list vs => vs.map fun v => (sub (sub key name) ⟨[]⟩, v)
  | .map es => es.map fun e => (sub (sub key name) e.1, e.2)

/-- A name without brackets. -/
def Plain (name : QString) : Prop := ∀ c ∈ name.units, isBracket c = false

structure Name (name : QString) : Prop where
  ne_nil : name.units ≠ []
  plain : Plain name

def Param.Valid : Param → Prop
  | .single _ => True
  | .list vs => vs ≠ []
  | .map es => es ≠ [] ∧ Ascending es ∧ ∀ e ∈ es, Name e.1

/-- A map of parameters with names. -/
structure Parameters (m : List (QString × Param)) : Prop where
  ascending : Ascending m
  valid : ∀ e ∈ m, Name e.1 ∧ e.2.Valid

/-- An item whose name begins with the key and a bracket. -/
def ofKey (key : QString) (p : QString × QString) : Bool :=
  (key.units ++ [OPEN]).isPrefixOf p.1.units

/-- The items of the map in some order, with the values of each list in theirs, among items of
other keys. -/
structure Arranges (key : QString) (m : List (QString × Param)) (items : Items) : Prop where
  rearranged : (items.filter (ofKey key)).Perm (m.flatMap fun e => e.2.items key e.1)
  inOrder : ∀ name vs, (name, Param.list vs) ∈ m →
    (items.filter fun p => p.1 = sub (sub key name) ⟨[]⟩).map Prod.snd = vs

/-! ### Reading a name -/

lemma bracket_append {k : List UInt16} (hk : ∀ c ∈ k, isBracket c = false) (rest : List UInt16) :
    bracket (OPEN :: (k ++ CLOSE :: rest)) = some (k, rest) := by
  have hkept : ∀ c ∈ k, (!isBracket c) = true := fun c hc => by simp [hk c hc]
  have hclose : (!isBracket CLOSE) = false := by decide
  have hdrop : (k ++ CLOSE :: rest).dropWhile (fun c => !isBracket c) = CLOSE :: rest := by
    rw [List.dropWhile_append_of_pos hkept, List.dropWhile_cons_of_neg (by simp [hclose])]
  have htake : (k ++ CLOSE :: rest).takeWhile (fun c => !isBracket c) = k := by
    rw [List.takeWhile_append_of_pos hkept, List.takeWhile_cons_of_neg (by simp [hclose]),
      List.append_nil]
  simp only [bracket, if_true, hdrop, htake]

lemma eq_of_bracket {t : List UInt16} {r : List UInt16 × List UInt16} (h : bracket t = some r) :
    t = OPEN :: (r.1 ++ CLOSE :: r.2) := by
  cases t with
  | nil => cases h
  | cons c t =>
    rw [bracket] at h
    split_ifs at h with hc
    · have hsplit := List.takeWhile_append_dropWhile (p := fun c => !isBracket c) (l := t)
      cases hdrop : t.dropWhile fun c => !isBracket c with
      | nil => simp [hdrop] at h
      | cons d rest =>
        simp only [hdrop] at h
        split_ifs at h with hd
        · obtain rfl := Option.some.inj h
          rw [hdrop, hd] at hsplit
          rw [hc, hsplit]

lemma behind_append (key : QString) (t : List UInt16) : behind key ⟨key.units ++ t⟩ = some t := by
  simp [behind]

lemma eq_of_behind {key name : QString} {t : List UInt16} (h : behind key name = some t) :
    name = ⟨key.units ++ t⟩ := by
  unfold behind at h
  split_ifs at h with hprefix
  · obtain ⟨u, hu⟩ := List.isPrefixOf_iff_prefix.mp hprefix
    obtain rfl := Option.some.inj h
    cases name
    simp only at hu ⊢
    rw [← hu, List.drop_left]

/-- The captures of either expression; the second name is none for the first. -/
def captures (key name : QString) : Option (QString × Option QString) :=
  match rx key name with
  | some k => some (k, none)
  | none => (rx2 key name).map fun c => (c.1, some c.2)

/-- The value a name has after an item with these captures. -/
def update (v : Option QVariant) : Option QString × QString → QVariant
  | (none, val) => .string val
  | (some k2, val) =>
    if k2.units.isEmpty then .list (toList v ++ [.string val])
    else .map (insertMulti k2 (.string val) (toMap v))

lemma addItem_eq (key : QString) (map : QVariantMap) (p : QString × QString) :
    addItem key map p = ((captures key p.1).map fun c =>
      insert c.1 (update (find map c.1) (c.2, p.2)) map).getD map := by
  cases hrx : rx key p.1 with
  | some k => simp [addItem, captures, hrx, update]
  | none =>
    cases hrx2 : rx2 key p.1 with
    | none => simp [addItem, captures, hrx, hrx2]
    | some c =>
      simp only [addItem, captures, hrx, hrx2, Option.map_some, Option.getD_some, update]
      split <;> rfl

lemma captures_sub {key name : QString} (hn : Name name) :
    captures key (sub key name) = some (name, none) := by
  have hrx : rx key (sub key name) = some name := by
    rw [rx, sub, behind_append, Option.bind_eq_bind, Option.bind_some,
      bracket_append hn.plain]
    simp [hn.ne_nil]
  rw [captures, hrx]

lemma captures_sub_sub {key name k2 : QString} (hn : Name name) (hk : Plain k2) :
    captures key (sub (sub key name) k2) = some (name, some k2) := by
  have hshape : sub (sub key name) k2 =
      ⟨key.units ++ OPEN :: (name.units ++ CLOSE :: (OPEN :: (k2.units ++ [CLOSE])))⟩ := by
    simp [sub]
  have hrx : rx key (sub (sub key name) k2) = none := by
    rw [rx, hshape, behind_append, Option.bind_eq_bind, Option.bind_some,
      bracket_append hn.plain]
    simp
  have hrx2 : rx2 key (sub (sub key name) k2) = some (name, k2) := by
    rw [rx2, hshape, behind_append, Option.bind_eq_bind, Option.bind_some,
      bracket_append hn.plain]
    simp only [Option.bind_eq_bind, Option.bind_some, bracket_append hk]
    simp [hn.ne_nil]
  rw [captures, hrx, hrx2, Option.map_some]

/-- **What has captures** is a name behind the key, or two. -/
lemma eq_of_captures {key n : QString} {c : QString × Option QString}
    (h : captures key n = some c) :
    n = ((c.2.map fun k2 => sub (sub key c.1) k2).getD (sub key c.1)) := by
  unfold captures at h
  cases hrx : rx key n with
  | some k =>
    rw [hrx] at h
    obtain rfl := Option.some.inj h
    obtain ⟨t, ht, hbind⟩ := Option.bind_eq_some_iff.mp hrx
    obtain ⟨⟨k1, rest⟩, hr, hlast⟩ := Option.bind_eq_some_iff.mp hbind
    dsimp only at hlast
    split_ifs at hlast with hbad
    · push Not at hbad
      obtain rfl := Option.some.inj hlast
      rw [eq_of_behind ht, eq_of_bracket hr, hbad.2]
      rfl
  | none =>
    rw [hrx] at h
    obtain ⟨c', hrx2, rfl⟩ := Option.map_eq_some_iff.mp h
    obtain ⟨t, ht, hbind⟩ := Option.bind_eq_some_iff.mp hrx2
    obtain ⟨⟨k1, rest⟩, hr, hbind⟩ := Option.bind_eq_some_iff.mp hbind
    obtain ⟨⟨k2, rest'⟩, hr', hlast⟩ := Option.bind_eq_some_iff.mp hbind
    dsimp only at hlast hr'
    split_ifs at hlast with hbad
    · push Not at hbad
      obtain rfl := Option.some.inj hlast
      rw [eq_of_behind ht, eq_of_bracket hr, eq_of_bracket hr', hbad.2]
      simp [sub]

lemma ofKey_of_captures {key : QString} {p : QString × QString} {c : QString × Option QString}
    (h : captures key p.1 = some c) : ofKey key p = true := by
  rw [ofKey, List.isPrefixOf_iff_prefix, eq_of_captures h]
  cases c.2 with
  | none => exact ⟨c.1.units ++ [CLOSE], by simp [sub]⟩
  | some k2 => exact ⟨c.1.units ++ [CLOSE] ++ OPEN :: (k2.units ++ [CLOSE]), by simp [sub]⟩

/-! ### One name -/

/-- What an item gives to a name. -/
def view (key name : QString) (p : QString × QString) : Option (Option QString × QString) :=
  (captures key p.1).bind fun c => if c.1 = name then some (c.2, p.2) else none

/-- What the items of a parameter give to its name. -/
def Param.contents : Param → List (Option QString × QString)
  | .single v => [(none, v)]
  | .list vs => vs.map fun v => (some ⟨[]⟩, v)
  | .map es => es.map fun e => (some e.1, e.2)

lemma find_addItem (key name : QString) (map : QVariantMap) (p : QString × QString) :
    find (addItem key map p) name =
      ((view key name p).map fun c => some (update (find map name) c)).getD (find map name) := by
  rw [addItem_eq, view]
  cases captures key p.1 with
  | none => rfl
  | some c =>
    simp only [Option.map_some, Option.getD_some, Option.bind_some, find_insert]
    by_cases hname : c.1 = name
    · simp [hname]
    · simp [hname]

/-- **The loop**, as one name sees it. -/
lemma find_foldl_addItem (key name : QString) (items : Items) (map : QVariantMap) :
    find (items.foldl (addItem key) map) name =
      (items.filterMap (view key name)).foldl (fun v c => some (update v c)) (find map name) := by
  induction items generalizing map with
  | nil => rfl
  | cons p items ih =>
    rw [List.foldl_cons, ih, find_addItem, List.filterMap_cons]
    cases view key name p <;> rfl

lemma ascending_addItem {key : QString} {map : QVariantMap} (h : Ascending map)
    (p : QString × QString) : Ascending (addItem key map p) := by
  rw [addItem_eq]
  cases captures key p.1 with
  | none => exact h
  | some c => exact h.insert _ _

lemma ascending_itemMap (key : QString) (items : Items) : Ascending (itemMap key items) := by
  have hloop : ∀ map, Ascending map → Ascending (items.foldl (addItem key) map) := by
    induction items with
    | nil => exact fun map h => h
    | cons p items ih => exact fun map h => ih _ (ascending_addItem h p)
  exact hloop [] List.Pairwise.nil

lemma foldl_update_list (vs : List QString) (l : List QVariant) :
    (vs.map fun v => ((some ⟨[]⟩ : Option QString), v)).foldl (fun v c => some (update v c))
      (some (.list l)) = some (.list (l ++ vs.map QVariant.string)) := by
  induction vs generalizing l with
  | nil => simp
  | cons v vs ih =>
    rw [List.map_cons, List.foldl_cons]
    have hone : update (some (.list l)) (some ⟨[]⟩, v) = .list (l ++ [QVariant.string v]) := rfl
    rw [hone, ih]
    simp

lemma foldl_update_map {es : List (QString × QString)} (hes : ∀ e ∈ es, Name e.1)
    (m : QVariantMap) :
    (es.map fun e => (some e.1, e.2)).foldl (fun v c => some (update v c)) (some (.map m)) =
      some (.map (es.foldl (fun m e => insertMulti e.1 (.string e.2) m) m)) := by
  induction es generalizing m with
  | nil => rfl
  | cons e es ih =>
    have hone : update (some (.map m)) (some e.1, e.2) =
        .map (insertMulti e.1 (.string e.2) m) := by
      simp [update, (hes e (by simp)).ne_nil, toMap]
    rw [List.map_cons, List.foldl_cons, hone, ih fun d hd => hes d (List.mem_cons_of_mem _ hd)]
    rfl

lemma foldl_insert_string (es : List (QString × QString)) (m : QVariantMap) :
    es.foldl (fun m e => insertMulti e.1 (.string e.2) m) m =
      (es.map fun e => (e.1, QVariant.string e.2)).foldl (fun m e => insertMulti e.1 e.2 m) m := by
  rw [List.foldl_map]

lemma foldl_update_of_list {vs : List QString} (hvs : vs ≠ [])
    {cs : List (Option QString × QString)} (hall : ∀ c ∈ cs, c.1 = some ⟨[]⟩)
    (hvalues : cs.map Prod.snd = vs) :
    cs.foldl (fun v c => some (update v c)) none = some (.list (vs.map .string)) := by
  have hcs : cs = vs.map fun v => (some ⟨[]⟩, v) := by
    rw [← hvalues, List.map_map]
    refine ((List.map_congr_left fun c hc => ?_).trans (List.map_id cs)).symm
    exact Prod.ext (hall c hc).symm rfl
  obtain ⟨v, vs, rfl⟩ := List.exists_cons_of_ne_nil hvs
  have hone : update none (some ⟨[]⟩, v) = .list [.string v] := rfl
  rw [hcs, List.map_cons, List.foldl_cons, hone, foldl_update_list]
  rfl

lemma foldl_update_of_map {es ds : List (QString × QString)} (hne : es ≠ [])
    (hascending : Ascending es) (hnames : ∀ e ∈ es, Name e.1)
    (hperm : ds.Perm es) :
    (ds.map fun e => (some e.1, e.2)).foldl (fun v c => some (update v c)) none =
      some (.map (es.map fun e => (e.1, .string e.2))) := by
  have hdnames : ∀ e ∈ ds, Name e.1 := fun e he => hnames e (hperm.mem_iff.mp he)
  have hfold : ds.foldl (fun m e => insertMulti e.1 (QVariant.string e.2) m) [] =
      es.map fun e => (e.1, .string e.2) := by
    rw [foldl_insert_string, foldl_insertMulti]
    refine byKey_eq_of_perm ((List.reverse_perm _).trans (hperm.map _)) ?_
    exact List.pairwise_map.mpr hascending
  have hdne : ds ≠ [] := by
    rintro rfl
    exact hne hperm.nil_eq.symm
  obtain ⟨d, ds', rfl⟩ := List.exists_cons_of_ne_nil hdne
  have hone : update none (some d.1, d.2) = .map (insertMulti d.1 (.string d.2) []) := by
    simp [update, (hdnames d (by simp)).ne_nil, toMap]
  rw [List.map_cons, List.foldl_cons, hone,
    foldl_update_map fun e he => hdnames e (List.mem_cons_of_mem _ he)]
  rw [List.foldl_cons] at hfold
  rw [hfold]

/-- **The value of a name** whose items give it these contents. -/
lemma foldl_update_contents {prm : Param} (hv : prm.Valid)
    {cs : List (Option QString × QString)} (hperm : cs.Perm prm.contents)
    (hlist : ∀ vs, prm = .list vs → cs.map Prod.snd = vs) :
    cs.foldl (fun v c => some (update v c)) none = some prm.value := by
  cases prm with
  | single v =>
    rw [List.perm_singleton.mp hperm]
    rfl
  | list vs =>
    refine foldl_update_of_list hv (fun c hc => ?_) (hlist vs rfl)
    obtain ⟨v, -, rfl⟩ := List.mem_map.mp (hperm.mem_iff.mp hc)
    rfl
  | map es =>
    obtain ⟨hne, hascending, hnames⟩ := hv
    set ds : List (QString × QString) := cs.map fun c => (c.1.getD ⟨[]⟩, c.2) with hds
    have hcs : cs = ds.map fun e => (some e.1, e.2) := by
      rw [hds, List.map_map]
      refine ((List.map_congr_left fun c hc => ?_).trans (List.map_id cs)).symm
      obtain ⟨e, -, rfl⟩ := List.mem_map.mp (hperm.mem_iff.mp hc)
      rfl
    have hds_perm : ds.Perm es := by
      have hmap := hperm.map fun c => (c.1.getD ⟨[]⟩, c.2)
      rw [Param.contents, List.map_map] at hmap
      exact hmap.trans (.of_eq (List.map_id es))
    rw [hcs]
    exact foldl_update_of_map hne hascending hnames hds_perm

/-! ### All names -/

lemma filterMap_view_items {key n : QString} (hn : Name n) {prm : Param} (hv : prm.Valid)
    (name : QString) :
    (prm.items key n).filterMap (view key name) = if n = name then prm.contents else [] := by
  have hempty : Plain ⟨[]⟩ := fun c hc => by cases hc
  cases prm with
  | single v =>
    have hview : view key name (sub key n, v) = if n = name then some (none, v) else none := by
      rw [view, captures_sub hn, Option.bind_some]
    by_cases h : n = name
    · subst h
      rw [if_pos rfl] at hview
      simp [Param.items, Param.contents, hview]
    · rw [if_neg h] at hview
      simp [Param.items, hview, h]
  | list vs =>
    simp only [Param.items, Param.contents, List.filterMap_map, Function.comp_def, view,
      captures_sub_sub hn hempty, Option.bind_some]
    by_cases h : n = name <;> simp [h]
  | map es =>
    have hview : ∀ e ∈ es, view key name (sub (sub key n) e.1, e.2) =
        if n = name then some (some e.1, e.2) else none := by
      intro e he
      rw [view, captures_sub_sub hn (hv.2.2 e he).plain, Option.bind_some]
    rw [Param.items, List.filterMap_map, Param.contents]
    refine (List.filterMap_congr hview).trans ?_
    by_cases h : n = name <;> simp [h]

lemma filterMap_view_flatMap {key : QString} {m : List (QString × Param)} (hm : Parameters m)
    (name : QString) :
    (m.flatMap fun e => e.2.items key e.1).filterMap (view key name) =
      ((find m name).map Param.contents).getD [] := by
  obtain ⟨hascending, hvalid⟩ := hm
  induction m with
  | nil => rfl
  | cons e m ih =>
    obtain ⟨hlt, hrest⟩ := List.pairwise_cons.mp hascending
    obtain ⟨hname, hprm⟩ := hvalid e (by simp)
    rw [List.flatMap_cons, List.filterMap_append, filterMap_view_items hname hprm,
      ih hrest fun d hd => hvalid d (List.mem_cons_of_mem _ hd), find_cons]
    by_cases h : e.1 = name
    · subst h
      simp [find_eq_none_of_lt hlt]
    · simp [h]

lemma filterMap_view_perm {key : QString} {m : List (QString × Param)} (hm : Parameters m)
    {items : Items} (h : Arranges key m items) (name : QString) :
    (items.filterMap (view key name)).Perm (((find m name).map Param.contents).getD []) := by
  have hown : (items.filter (ofKey key)).filterMap (view key name) =
      items.filterMap (view key name) := by
    rw [List.filterMap_filter]
    refine List.filterMap_congr fun p _ => ?_
    split_ifs with hkey
    · rfl
    · cases hc : captures key p.1 with
      | none => simp [view, hc]
      | some c => exact absurd (ofKey_of_captures hc) hkey
  rw [← hown, ← filterMap_view_flatMap hm]
  exact h.rearranged.filterMap _

lemma map_snd_view_list {key name : QString} (hn : Name name) {items : Items}
    (hall : ∀ c ∈ items.filterMap (view key name), c.1 = some ⟨[]⟩) :
    (items.filterMap (view key name)).map Prod.snd =
      (items.filter fun p => p.1 = sub (sub key name) ⟨[]⟩).map Prod.snd := by
  have hempty : Plain ⟨[]⟩ := fun c hc => by cases hc
  induction items with
  | nil => rfl
  | cons p items ih =>
    have hrest := ih fun c hc => hall c (by
      rw [List.filterMap_cons]
      cases view key name p with
      | none => exact hc
      | some d => exact List.mem_cons_of_mem _ hc)
    by_cases hp : p.1 = sub (sub key name) ⟨[]⟩
    · have hview : view key name p = some (some ⟨[]⟩, p.2) := by
        rw [view, hp, captures_sub_sub hn hempty]
        simp
      simp [hview, hp, hrest]
    · have hview : view key name p = none := by
        by_contra hne
        obtain ⟨c, hc⟩ := Option.ne_none_iff_exists'.mp hne
        have hfirst := hall c (List.mem_filterMap.mpr ⟨p, by simp, hc⟩)
        obtain ⟨d, hd, hd'⟩ := Option.bind_eq_some_iff.mp hc
        split_ifs at hd' with hname
        · obtain rfl := Option.some.inj hd'
          have hshape := eq_of_captures hd
          have hsecond : d.2 = some ⟨[]⟩ := hfirst
          rw [hsecond, hname] at hshape
          exact hp hshape
      simp [hview, hp, hrest]

lemma find_map_value (m : List (QString × Param)) (name : QString) :
    find (m.map fun e => (e.1, e.2.value)) name = (find m name).map Param.value := by
  induction m with
  | nil => rfl
  | cons e m ih =>
    rw [List.map_cons, find_cons, find_cons, ih]
    split_ifs <;> rfl

/-- **Nested parameters** come back as the map they were made from, in whatever order their items
stand. -/
theorem itemMap_of_arranges {key : QString} {m : List (QString × Param)} (hm : Parameters m)
    {items : Items} (h : Arranges key m items) :
    itemMap key items = m.map fun e => (e.1, e.2.value) := by
  refine (ascending_itemMap key items).ext ?_ fun name => ?_
  · exact List.pairwise_map.mpr hm.ascending
  have hperm := filterMap_view_perm hm h name
  rw [itemMap, find_foldl_addItem, find_map_value, find_nil]
  cases hfind : find m name with
  | none =>
    rw [hfind] at hperm
    rw [List.perm_nil.mp hperm]
    rfl
  | some prm =>
    rw [hfind] at hperm
    have hmem : (name, prm) ∈ m := by
      obtain ⟨e, he, rfl⟩ := Option.map_eq_some_iff.mp hfind
      have hname : e.1 = name := by simpa using List.find?_some he
      exact hname ▸ List.mem_of_find?_eq_some he
    obtain ⟨hname, hv⟩ := hm.valid _ hmem
    refine foldl_update_contents hv hperm fun vs hvs => ?_
    subst hvs
    rw [map_snd_view_list hname fun c hc => ?_]
    · exact h.inOrder name vs hmem
    · obtain ⟨v, -, rfl⟩ := List.mem_map.mp (hperm.mem_iff.mp hc)
      rfl

lemma name_of_any {name : QString} (hne : name.units ≠ [])
    (h : name.units.any isBracket = false) : Name name :=
  ⟨hne, fun c hc => by simpa using List.any_eq_false.mp h c hc⟩

def text (s : String) : QString := QString.fromLatin1 (Bytes.ascii s)

/-- A map of a text, a list and a map. -/
def person : List (QString × Param) :=
  [(text "age", .single (text "7")), (text "langs", .list [text "b", text "a"]),
    (text "pos", .map [(text "x", text "1"), (text "y", text "2")])]

/-- Its items among those of another key. -/
def mixed : Items :=
  [(text "user[langs][]", text "b"), (text "user[pos][y]", text "2"), (text "q", text "3"),
    (text "user[age]", text "7"), (text "users[age]", text "8"), (text "user[langs][]", text "a"),
    (text "user[pos][x]", text "1")]

theorem itemMap_of_arranges_person :
    itemMap (text "user") mixed = person.map fun e => (e.1, e.2.value) := by
  refine itemMap_of_arranges ⟨by decide +kernel, ?_⟩ ⟨by decide +kernel, ?_⟩
  · intro e he
    simp only [person, List.mem_cons, List.not_mem_nil, or_false] at he
    rcases he with rfl | rfl | rfl
    · exact ⟨name_of_any (by decide) (by decide), trivial⟩
    · exact ⟨name_of_any (by decide) (by decide), List.cons_ne_nil _ _⟩
    · refine ⟨name_of_any (by decide) (by decide), List.cons_ne_nil _ _, ?_, ?_⟩
      · decide +kernel
      intro d hd
      simp only [List.mem_cons, List.not_mem_nil, or_false] at hd
      rcases hd with rfl | rfl
      · exact name_of_any (by decide) (by decide)
      · exact name_of_any (by decide) (by decide)
  · intro name vs hmem
    simp only [person, List.mem_cons, Prod.mk.injEq, reduceCtorEq, and_false, false_or,
      List.not_mem_nil, or_false, Param.list.injEq] at hmem
    obtain ⟨rfl, rfl⟩ := hmem
    decide +kernel

end TreeFrog.ItemMap
