import TreeFrog.UrlRoute

/-!
The search for the route of a path, compared with what the patterns say: a literal stands for
itself, `:param` takes one component and `:params` at the end the rest.
-/

namespace TreeFrog.UrlMatch

open TreeFrog.Bytes TreeFrog.LexicalPath TreeFrog.UrlRoute

/-! ### What a pattern says -/

/-- The components that a pattern takes as parameters; none if it does not match. -/
def takes : List Text → List Text → Option (List Text)
  | [], [] => some []
  | [], _ :: _ => none
  | c :: cs, xs =>
    if c = PARAMS then if cs = [] then some xs else none
    else
      match xs with
      | [] => none
      | x :: xs =>
        if c = PARAM then (takes cs xs).map (x :: ·)
        else if x = c then takes cs xs
        else none

/-- The parameters of a route that matches; the path `/` has none for `:params`. -/
def matched (method : HttpMethod) (components : List Text) (rt : TRoute) : Option (List Text) :=
  if rt.method = .matchAny ∨ rt.method = .only method then
    if rt.componentList = [PARAMS] ∧ components = [[]] then some []
    else takes rt.componentList components
  else none

/-- The first route that matches, with its parameters. -/
def firstMatch (routes : List TRoute) (method : HttpMethod) (components : List Text) :
    Option (TRoute × List Text) :=
  routes.findSome? fun rt => (matched method components rt).map fun params => (rt, params)

def routing (rt : TRoute) (params : List Text) : TRouting :=
  ⟨true, rt.controller, rt.action, params⟩

/-- What is to be found. -/
def expected (routes : List TRoute) (method : HttpMethod) (components : List Text) : TRouting :=
  ((firstMatch routes method components).map fun m => routing m.1 m.2).getD .none

/-! ### The accesses to the lists -/

/-- The comparisons of one route; none if an index is out of range. -/
def checkedKeywords (rt : TRoute) (components : List Text) : List ℕ → Option Bool
  | [] => some true
  | idx :: idxs =>
    match rt.componentList[idx]? with
    | none => none
    | some c =>
      if components.getD idx [] = c then checkedKeywords rt components idxs else some false

/-- The removals, the last index first. -/
def checkedErase (keywordIndexes : List ℕ) (params : List Text) : Option (List Text) :=
  keywordIndexes.foldr (fun idx params =>
    params.bind fun params =>
      if idx < params.length then some (params.eraseIdx idx) else none) (some params)

/-- `findRouting` with each access checked. -/
def checkedRouting (method : HttpMethod) (components : List Text) :
    List TRoute → Option TRouting
  | [] => some .none
  | rt :: routes =>
    if (if rt.hasVariableParams then components.length < rt.componentList.length - 1
        else components.length ≠ rt.componentList.length) then
      checkedRouting method components routes
    else
      match checkedKeywords rt components rt.keywordIndexes with
      | none => none
      | some keywords =>
        if keywords && (rt.method = .matchAny || rt.method = .only method) then
          if components = [[]] then some (routing rt [])
          else (checkedErase rt.keywordIndexes components).map (routing rt)
        else checkedRouting method components routes

/-! ### The routes of a table -/

/-- What is known of a route that has been read. -/
structure Routed (rt : TRoute) : Prop where
  nonempty : rt.componentList ≠ []
  keywords : rt.keywordIndexes = keywords rt.componentList
  paramNum : rt.paramNum = rt.componentList.count PARAM
  hasVariableParams : rt.hasVariableParams = rt.componentList.contains PARAMS
  last : rt.hasVariableParams = true → rt.componentList.getLast? ≠ some []

lemma join_components (t : Text) : join (components t) = t := by
  induction t with
  | nil => rfl
  | cons c t ih =>
    by_cases hc : c = SLASH
    · subst hc
      rw [components_slash, join_cons (components_ne_nil t), ih]
      rfl
    · obtain ⟨s, ss, hs⟩ := exists_components t
      rw [components_cons hc hs]
      rw [hs] at ih
      by_cases hss : ss = []
      · subst hss
        rw [join, List.intercalate_singleton] at ih ⊢
        rw [ih]
      · rw [join_cons hss] at ih ⊢
        rw [List.cons_append, ih]

lemma infix_of_mem_components {t s : Text} (h : s ∈ components t) : s <:+: t := by
  have hjoin : ∀ xs : List Text, s ∈ xs → s <:+: join xs := by
    intro xs
    induction xs with
    | nil => exact fun h => absurd h List.not_mem_nil
    | cons x xs ih =>
      intro h
      by_cases hxs : xs = []
      · subst hxs
        rw [List.mem_singleton.mp h, join, List.intercalate_singleton]
      · rw [join_cons hxs]
        rcases List.mem_cons.mp h with rfl | h
        · exact (List.prefix_append _ _).isInfix
        · exact (ih h).trans ((List.suffix_cons _ _).trans (List.suffix_append _ _)).isInfix
  exact join_components t ▸ hjoin _ h

lemma of_last_components {t : Text} (h : (components t).getLast? = some []) :
    t = [] ∨ t.getLast? = some SLASH := by
  obtain ⟨ys, hys⟩ := List.getLast?_eq_some_iff.mp h
  rw [← join_components t, hys]
  by_cases hnil : ys = []
  · subst hnil
    exact .inl rfl
  · right
    rw [join_append_singleton hnil, List.getLast?_concat]

lemma splitPath_eq (path : Text) : ∃ t, splitPath path = components t ∧ t <:+: path ∧
    (path ≠ [] → path.getLast? ≠ some SLASH → t ≠ [] ∧ t.getLast? = path.getLast?) := by
  refine ⟨_, rfl, ((List.take_prefix _ _).isInfix).trans (List.drop_suffix _ _).isInfix,
    fun hne hlast => ?_⟩
  rw [if_neg fun h => hlast h.2]
  have hwhole : ∀ s, (path.drop s).take (path.length - s) = path.drop s := fun s =>
    List.take_of_length_le (by rw [List.length_drop])
  rw [hwhole]
  split_ifs with hhead
  · obtain ⟨rest, rfl⟩ : ∃ rest, path = SLASH :: rest := by
      cases path with
      | nil => exact absurd rfl hne
      | cons c rest => exact ⟨rest, by rw [Option.some.inj hhead]⟩
    have hrest : rest ≠ [] := by
      rintro rfl
      exact hlast rfl
    rw [List.drop_one, List.tail_cons]
    refine ⟨hrest, ?_⟩
    obtain ⟨c, rest, rfl⟩ := List.exists_cons_of_ne_nil hrest
    rw [List.getLast?_cons_cons]
  · exact ⟨hne, rfl⟩

variable {u : Unicode} {line : Text} {rt : TRoute}

/-- Where one component of a path is `:params` and the path ends with it, no component is empty at
the end. -/
lemma last_ne_nil {path : Text} (hmem : PARAMS ∈ splitPath path)
    (hpath : ¬ (PARAMS <:+: path ∧ ¬ PARAMS <:+ path)) : (splitPath path).getLast? ≠ some [] := by
  intro hempty
  obtain ⟨t, ht, hinfix, hend⟩ := splitPath_eq path
  rw [ht] at hmem hempty
  obtain ⟨front, hfront⟩ : PARAMS <:+ path :=
    not_not.mp fun hn => hpath ⟨(infix_of_mem_components hmem).trans hinfix, hn⟩
  have hpathlast : path.getLast? = PARAMS.getLast? := by
    rw [← hfront, List.getLast?_append_of_ne_nil _ (by decide)]
  obtain ⟨hne, hlast⟩ := hend
    (by rw [← hfront]; exact List.append_ne_nil_of_right_ne_nil _ (by decide))
    (by rw [hpathlast]; decide)
  rcases of_last_components hempty with rfl | hslash
  · exact hne rfl
  · rw [hlast, hpathlast] at hslash
    exact absurd hslash (by decide)

lemma routed_of_path {path : Text} {idxs : List ℕ}
    (hpath : ¬ (PARAMS <:+: path ∧ ¬ PARAMS <:+ path))
    (hidxs : keywordLoop 0 (splitPath path) = some idxs) (method : RouteDirective)
    (c a : QByteArray) :
    Routed ⟨method, splitPath path, idxs, c, a, (splitPath path).count PARAM,
      (splitPath path).contains PARAMS⟩ := by
  refine ⟨components_ne_nil _, ?_, rfl, rfl, fun hvariable => last_ne_nil ?_ hpath⟩
  · rw [keywordLoop_eq hidxs]
    exact List.map_id _
  · simpa using hvariable

/-- **A route that has been read**: if one of its components is `:params`, the last one is not
empty. -/
lemma routed_of_parse (h : parseRoute u line = some rt) : Routed rt := by
  unfold parseRoute at h
  split at h
  · next directive item1 item2 hwords =>
    dsimp only at h
    split_ifs at h with hpath
    · split at h
      · cases h
      · split at h
        · cases h
        · next idxs hidxs =>
          obtain rfl := Option.some.inj h
          exact routed_of_path hpath hidxs _ _ _
    · split at h
      · cases h
      · split at h
        · cases h
        · next idxs hidxs =>
          split at h
          · cases h
          · obtain rfl := Option.some.inj h
            exact routed_of_path hpath hidxs _ _ _
  · cases h

lemma routed_of_mem {lines : List Text} (h : rt ∈ table u lines) : Routed rt := by
  rw [table_eq, List.mem_filterMap] at h
  obtain ⟨line, -, hline⟩ := h
  exact routed_of_parse hline

/-! ### One route -/

variable {method : HttpMethod} {cs xs ps : List Text}

lemma fits_iff : fits method xs rt = true ↔
    (if rt.hasVariableParams then rt.componentList.length - 1 ≤ xs.length
      else xs.length = rt.componentList.length) ∧
    (∀ idx ∈ rt.keywordIndexes, xs.getD idx [] = rt.componentList.getD idx []) ∧
    (rt.method = .matchAny ∨ rt.method = .only method) := by
  rw [fits, Bool.and_eq_true, Bool.and_eq_true, List.all_eq_true, and_assoc]
  refine and_congr ?_ (and_congr ?_ ?_)
  · cases rt.hasVariableParams <;> simp
  · simp only [decide_eq_true_eq]
  · simp

lemma trailing_tail {c : Text} (h : PARAMS ∉ (c :: cs).dropLast) : PARAMS ∉ cs.dropLast := by
  cases cs with
  | nil => exact List.not_mem_nil
  | cons d cs =>
    rw [List.dropLast_cons_cons, List.mem_cons, not_or] at h
    exact h.2

lemma trailing_of_takes (h : takes cs xs = some ps) : PARAMS ∉ cs.dropLast := by
  induction cs generalizing xs ps with
  | nil => exact List.not_mem_nil
  | cons c cs ih =>
    have hrest : cs = [] ∨ c ≠ PARAMS ∧ ∃ ys qs, takes cs ys = some qs := by
      cases xs with
      | nil =>
        rw [takes] at h
        split_ifs at h with hparams hnil
        exact .inl hnil
      | cons x xs =>
        rw [takes] at h
        split_ifs at h with hparams hnil hparam hliteral
        · exact .inl hnil
        · obtain ⟨qs, hqs, -⟩ := Option.map_eq_some_iff.mp h
          exact .inr ⟨hparams, xs, qs, hqs⟩
        · exact .inr ⟨hparams, xs, ps, h⟩
    obtain rfl | ⟨hparams, ys, qs, hqs⟩ := hrest
    · exact List.not_mem_nil
    · cases cs with
      | nil => exact List.not_mem_nil
      | cons d cs =>
        rw [List.dropLast_cons_cons, List.mem_cons, not_or]
        exact ⟨fun hc => hparams hc.symm, ih hqs⟩

lemma params_mem_cons {c : Text} (hc : c ≠ PARAMS) : PARAMS ∈ c :: cs ↔ PARAMS ∈ cs := by
  rw [List.mem_cons]
  exact or_iff_right fun h => hc h.symm

lemma length_cons_iff {c x : Text} (hc : c ≠ PARAMS) :
    (if PARAMS ∈ c :: cs then (c :: cs).length - 1 ≤ (x :: xs).length
      else (x :: xs).length = (c :: cs).length) ↔
      if PARAMS ∈ cs then cs.length - 1 ≤ xs.length else xs.length = cs.length := by
  by_cases hin : PARAMS ∈ cs
  · have hpos := List.length_pos_of_mem hin
    rw [if_pos hin, if_pos ((params_mem_cons hc).mpr hin)]
    simp only [List.length_cons]
    omega
  · rw [if_neg hin, if_neg (mt (params_mem_cons hc).mp hin)]
    simp only [List.length_cons, Nat.add_right_cancel_iff]

lemma erase_literal {c x : Text} (hc : ¬ (c = PARAM ∨ c = PARAMS)) :
    erase (keywords (c :: cs)) (x :: xs) = erase (keywords cs) xs := by
  rw [keywords_literal hc]
  change (erase ((keywords cs).map (· + 1)) (x :: xs)).eraseIdx 0 = _
  rw [erase_succ]
  rfl

/-- **A pattern matches** when the lengths agree and the keywords stand in their places; what is
left of the components without the keywords are the parameters. -/
lemma takes_iff (h : PARAMS ∉ cs.dropLast) : takes cs xs = some ps ↔
    (if PARAMS ∈ cs then cs.length - 1 ≤ xs.length else xs.length = cs.length) ∧
    (∀ idx ∈ keywords cs, xs.getD idx [] = cs.getD idx []) ∧ erase (keywords cs) xs = ps := by
  induction cs generalizing xs ps with
  | nil =>
    cases xs with
    | nil => simp [takes, keywords, erase]
    | cons x xs => simp [takes]
  | cons c cs ih =>
    by_cases hparams : c = PARAMS
    · subst hparams
      -- `:params` is the last component
      have hnil : cs = [] := by
        by_contra hne
        obtain ⟨d, cs, rfl⟩ := List.exists_cons_of_ne_nil hne
        exact h (by rw [List.dropLast_cons_cons]; exact List.mem_cons_self)
      subst hnil
      simp [takes, keywords, erase]
    · cases xs with
      | nil =>
        rw [takes, if_neg hparams]
        refine iff_of_false (by simp) fun hall => ?_
        have hlength := hall.1
        split_ifs at hlength with hin
        have hpos := List.length_pos_of_mem ((params_mem_cons hparams).mp hin)
        simp only [List.length_cons, List.length_nil] at hlength
        omega
      | cons x xs =>
        rw [length_cons_iff hparams, takes, if_neg hparams]
        by_cases hparam : c = PARAM
        · subst hparam
          rw [if_pos rfl, keywords_param, erase_succ, List.forall_mem_map]
          simp only [List.getD_cons_succ]
          cases ps with
          | nil => simp
          | cons p ps =>
            rw [List.cons.injEq, Option.map_eq_some_iff]
            constructor
            · rintro ⟨qs, hqs, heq⟩
              obtain ⟨rfl, rfl⟩ := List.cons.inj heq
              obtain ⟨h1, h2, h3⟩ := (ih (trailing_tail h)).mp hqs
              exact ⟨h1, h2, rfl, h3⟩
            · rintro ⟨h1, h2, rfl, h3⟩
              exact ⟨ps, (ih (trailing_tail h)).mpr ⟨h1, h2, h3⟩, rfl⟩
        · have hliteral : ¬ (c = PARAM ∨ c = PARAMS) := not_or.mpr ⟨hparam, hparams⟩
          rw [if_neg hparam, erase_literal hliteral, keywords_literal hliteral,
            List.forall_mem_cons,
            List.forall_mem_map]
          simp only [List.getD_cons_succ, List.getD_cons_zero]
          by_cases hx : x = c
          · rw [if_pos hx, ih (trailing_tail h)]
            rw [and_iff_right hx]
          · rw [if_neg hx]
            exact iff_of_false (by simp) fun hall => hx hall.2.1.1

/-- A route without `:params` has as many parameters as it has `:param`. -/
theorem length_of_takes {cs xs ps : List Text} (h : takes cs xs = some ps) (hp : PARAMS ∉ cs) :
    ps.length = cs.count PARAM := by
  induction cs generalizing xs ps with
  | nil =>
    cases xs with
    | nil => rw [← Option.some.inj h]; rfl
    | cons x xs => cases h
  | cons c cs ih =>
    rw [List.mem_cons, not_or] at hp
    cases xs with
    | nil =>
      rw [takes, if_neg fun hc => hp.1 hc.symm] at h
      cases h
    | cons x xs =>
      rw [takes, if_neg fun hc => hp.1 hc.symm] at h
      split_ifs at h with hparam hliteral
      · obtain ⟨qs, hqs, rfl⟩ := Option.map_eq_some_iff.mp h
        rw [hparam, List.length_cons, List.count_cons_self, ih hqs hp.2]
      · rw [List.count_cons_of_ne hparam, ih h hp.2]

/-- The parameters that `findRouting` takes. -/
def taken (rt : TRoute) (components : List Text) : List Text :=
  if components = [[]] then [] else erase rt.keywordIndexes components

lemma erase_nil (idxs : List ℕ) : erase idxs [] = [] :=
  List.eq_nil_iff_forall_not_mem.mpr fun x hx => absurd (erase_subset idxs [] x hx)
    List.not_mem_nil

lemma Routed.takes_iff (hr : Routed rt) (h : PARAMS ∉ rt.componentList.dropLast) :
    takes rt.componentList xs = some ps ↔
      (if rt.hasVariableParams then rt.componentList.length - 1 ≤ xs.length
        else xs.length = rt.componentList.length) ∧
      (∀ idx ∈ rt.keywordIndexes, xs.getD idx [] = rt.componentList.getD idx []) ∧
      erase rt.keywordIndexes xs = ps := by
  rw [UrlMatch.takes_iff h, hr.keywords, hr.hasVariableParams]
  simp only [List.contains_iff_mem]

lemma Routed.fits_of_matched (hr : Routed rt) (h : matched method xs rt = some ps) :
    fits method xs rt = true := by
  rw [matched] at h
  split_ifs at h with hmethod hroot
  · obtain ⟨hpattern, rfl⟩ := hroot
    rw [fits_iff, hr.keywords, hr.hasVariableParams, hpattern]
    exact ⟨by decide, fun idx hidx => absurd hidx List.not_mem_nil, hmethod⟩
  · obtain ⟨hlength, hkeywords, -⟩ := (hr.takes_iff (trailing_of_takes h)).mp h
    exact fits_iff.mpr ⟨hlength, hkeywords, hmethod⟩

/-- The path `/` for a pattern that begins with `:param`. -/
def IsRootParam (rt : TRoute) (components : List Text) : Prop :=
  components = [[]] ∧ rt.componentList.head? = some PARAM

/-- **A route that `findRouting` takes** matches, with the same parameters. -/
lemma Routed.matched_of_fits (hr : Routed rt) (ht : PARAMS ∉ rt.componentList.dropLast)
    (h : fits method xs rt = true) (hroot : ¬ IsRootParam rt xs) :
    matched method xs rt = some (taken rt xs) := by
  obtain ⟨hlength, hkeywords, hmethod⟩ := fits_iff.mp h
  rw [matched, if_pos hmethod, taken]
  by_cases hxs : xs = [[]]
  · subst hxs
    rw [if_pos rfl]
    split_ifs with hpattern
    · rfl
    · have hpattern : rt.componentList ≠ [PARAMS] := fun hp => hpattern ⟨hp, rfl⟩
      refine (hr.takes_iff ht).mpr ⟨hlength, hkeywords, ?_⟩
      obtain ⟨c, cs, hcs⟩ := List.exists_cons_of_ne_nil hr.nonempty
      rw [hcs] at ht hpattern
      have hliteral : ¬ (c = PARAM ∨ c = PARAMS) := by
        rintro (rfl | rfl)
        · exact hroot ⟨rfl, by rw [hcs]; rfl⟩
        · cases cs with
          | nil => exact hpattern rfl
          | cons d cs => exact ht (by rw [List.dropLast_cons_cons]; exact List.mem_cons_self)
      rw [hr.keywords, hcs, keywords_literal hliteral]
      change (erase ((UrlRoute.keywords cs).map (· + 1)) [[]]).eraseIdx 0 = _
      rw [erase_succ, erase_nil]
      rfl
  · rw [if_neg fun hroot => hxs hroot.2, if_neg hxs]
    exact (hr.takes_iff ht).mpr ⟨hlength, hkeywords, rfl⟩

/-- The empty component belongs to `:param`, but `findRouting` leaves it out. -/
lemma Routed.matched_root (hr : Routed rt) (ht : PARAMS ∉ rt.componentList.dropLast)
    (h : fits method xs rt = true) (hroot : IsRootParam rt xs) :
    ∃ ps, matched method xs rt = some ([] :: ps) := by
  obtain ⟨hlength, hkeywords, hmethod⟩ := fits_iff.mp h
  obtain ⟨rfl, hhead⟩ := hroot
  obtain ⟨cs, hcs⟩ := List.head?_eq_some_iff.mp hhead
  have hpattern : rt.componentList ≠ [PARAMS] := by
    rw [hcs]
    exact fun hp => params_ne_param (List.cons.inj hp).1.symm
  refine ⟨erase (UrlRoute.keywords cs) [], ?_⟩
  rw [matched, if_pos hmethod, if_neg fun h => hpattern h.1]
  refine (hr.takes_iff ht).mpr ⟨hlength, hkeywords, ?_⟩
  rw [hr.keywords, hcs, keywords_param, erase_succ]

/-! ### No access is out of range -/

lemma keywords_lt (cs : List Text) : ∀ idx ∈ keywords cs, idx < cs.length := by
  induction cs with
  | nil => exact fun idx hidx => absurd hidx List.not_mem_nil
  | cons c cs ih =>
    have hshift : ∀ idx ∈ (keywords cs).map (· + 1), idx < (c :: cs).length := by
      rw [List.forall_mem_map]
      exact fun idx hidx => Nat.succ_lt_succ (ih idx hidx)
    intro idx hidx
    rw [keywords] at hidx
    split_ifs at hidx with hparam
    · exact hshift idx hidx
    · rcases List.mem_cons.mp hidx with rfl | hidx
      · exact Nat.succ_pos _
      · exact hshift idx hidx

lemma keywords_ascending (cs : List Text) : (keywords cs).Pairwise (· < ·) := by
  induction cs with
  | nil => exact List.Pairwise.nil
  | cons c cs ih =>
    have hshift : ((keywords cs).map (· + 1)).Pairwise (· < ·) :=
      ih.map _ fun _ _ hlt => Nat.succ_lt_succ hlt
    rw [keywords]
    split_ifs
    · exact hshift
    · refine hshift.cons ?_
      rw [List.forall_mem_map]
      exact fun idx _ => Nat.succ_pos idx

lemma Routed.lt_length (hr : Routed rt)
    (hlength : if rt.hasVariableParams then rt.componentList.length - 1 ≤ xs.length
      else xs.length = rt.componentList.length)
    (hkeywords : ∀ idx ∈ rt.keywordIndexes, xs.getD idx [] = rt.componentList.getD idx []) :
    ∀ idx ∈ rt.keywordIndexes, idx < xs.length := by
  intro idx hidx
  have hlt : idx < rt.componentList.length := keywords_lt _ idx (hr.keywords ▸ hidx)
  split_ifs at hlength with hvariable
  · by_contra hge
    -- then it is the last one, and no component of the path
    have hkeyword := hkeywords idx hidx
    rw [List.getD_eq_getElem?_getD, List.getD_eq_getElem?_getD,
      List.getElem?_eq_none (by omega), List.getElem?_eq_getElem hlt] at hkeyword
    apply hr.last hvariable
    rw [List.getLast?_eq_getElem?, show rt.componentList.length - 1 = idx by omega,
      List.getElem?_eq_getElem hlt]
    exact congrArg some hkeyword.symm
  · omega

lemma length_erase (idxs : List ℕ) (xs : List Text) :
    xs.length ≤ (erase idxs xs).length + idxs.length := by
  induction idxs with
  | nil => exact le_rfl
  | cons idx idxs ih =>
    change _ ≤ ((erase idxs xs).eraseIdx idx).length + (idxs.length + 1)
    rw [List.length_eraseIdx]
    split_ifs <;> omega

lemma length_of_ascending {idxs : List ℕ} {a n : ℕ} (h : (a :: idxs).Pairwise (· < ·))
    (hlt : ∀ idx ∈ a :: idxs, idx < n) : a + idxs.length < n := by
  induction idxs generalizing a with
  | nil => exact hlt a List.mem_cons_self
  | cons b idxs ih =>
    have hb := ih (List.pairwise_cons.mp h).2 fun idx hidx => hlt idx (List.mem_cons_of_mem _ hidx)
    have hab := (List.pairwise_cons.mp h).1 b List.mem_cons_self
    rw [List.length_cons]
    omega

lemma checkedErase_eq {idxs : List ℕ} (h : idxs.Pairwise (· < ·))
    (hlt : ∀ idx ∈ idxs, idx < xs.length) : checkedErase idxs xs = some (erase idxs xs) := by
  induction idxs with
  | nil => rfl
  | cons idx idxs ih =>
    have hrest := ih (List.pairwise_cons.mp h).2 fun i hi => hlt i (List.mem_cons_of_mem _ hi)
    have hlength := length_erase idxs xs
    have hidx := length_of_ascending h hlt
    have hin : idx < (erase idxs xs).length := by omega
    change (checkedErase idxs xs).bind _ = _
    rw [hrest, Option.bind_some, if_pos hin]
    rfl

lemma checkedKeywords_eq (idxs : List ℕ) (hlt : ∀ idx ∈ idxs, idx < rt.componentList.length) :
    checkedKeywords rt xs idxs =
      some (idxs.all fun idx => xs.getD idx [] = rt.componentList.getD idx []) := by
  induction idxs with
  | nil => rfl
  | cons idx idxs ih =>
    have hidx := hlt idx List.mem_cons_self
    have hrest := ih fun i hi => hlt i (List.mem_cons_of_mem _ hi)
    have hget : rt.componentList.getD idx [] = rt.componentList[idx] := by
      rw [List.getD_eq_getElem?_getD, List.getElem?_eq_getElem hidx, Option.getD_some]
    rw [checkedKeywords, List.getElem?_eq_getElem hidx, List.all_cons, hget]
    dsimp only
    split_ifs with heq
    · rw [hrest, decide_eq_true heq, Bool.true_and]
    · rw [decide_eq_false heq, Bool.false_and]

/-- **The accesses are in range**, whatever the path is. -/
lemma checkedRouting_eq {routes : List TRoute} (h : ∀ rt ∈ routes, Routed rt) :
    checkedRouting method xs routes = some (findRouting routes method xs) := by
  induction routes with
  | nil => rfl
  | cons rt routes ih =>
    have hr := h rt List.mem_cons_self
    have hrest := ih fun r hr => h r (List.mem_cons_of_mem _ hr)
    have hkeywords : checkedKeywords rt xs rt.keywordIndexes =
        some (rt.keywordIndexes.all fun idx => xs.getD idx [] = rt.componentList.getD idx []) :=
      checkedKeywords_eq _ fun idx hidx => keywords_lt _ idx (hr.keywords ▸ hidx)
    by_cases hfits : fits method xs rt = true
    · -- the route is taken
      obtain ⟨hlength, hfound, hmethod⟩ := fits_iff.mp hfits
      have hall : (rt.keywordIndexes.all fun idx =>
          xs.getD idx [] = rt.componentList.getD idx []) = true :=
        List.all_eq_true.mpr fun idx hidx => decide_eq_true (hfound idx hidx)
      have hmethod' : (decide (rt.method = .matchAny) || decide (rt.method = .only method)) =
          true := by simpa using hmethod
      have hskip : ¬ if rt.hasVariableParams then xs.length < rt.componentList.length - 1
          else xs.length ≠ rt.componentList.length := by
        split_ifs at hlength ⊢
        · exact Nat.not_lt.mpr hlength
        · exact not_not_intro hlength
      have herase := checkedErase_eq (hr.keywords ▸ keywords_ascending _)
        (hr.lt_length hlength hfound)
      rw [checkedRouting, if_neg hskip, hkeywords, hall, hmethod', findRouting,
        List.find?_cons_of_pos hfits, herase]
      dsimp only
      rw [if_pos (by decide), Option.map_some]
      split_ifs <;> rfl
    · -- the route is passed over, for its length, a keyword or the method
      have hnext : findRouting (rt :: routes) method xs = findRouting routes method xs := by
        rw [findRouting, List.find?_cons_of_neg hfits, findRouting]
      rw [hnext, checkedRouting, hkeywords]
      by_cases hskip : if rt.hasVariableParams then xs.length < rt.componentList.length - 1
          else xs.length ≠ rt.componentList.length
      · rw [if_pos hskip, hrest]
      · rw [if_neg hskip]
        dsimp only
        rw [if_neg, hrest]
        intro hfound
        obtain ⟨hall, hmethod⟩ := Bool.and_eq_true_iff.mp hfound
        refine hfits (fits_iff.mpr ⟨?_, fun idx hidx => ?_, by simpa using hmethod⟩)
        · split_ifs at hskip ⊢
          · exact Nat.not_lt.mp hskip
          · exact not_not.mp hskip
        · exact of_decide_eq_true (List.all_eq_true.mp hall idx hidx)

/-! ### The table -/

/-- The route is found that should be, with one parameter for each `:param` if there is no
`:params`, and the search stays within the lists. -/
def FindsFirst (routes : List TRoute) (method : HttpMethod) (components : List Text) : Prop :=
  checkedRouting method components routes = some (findRouting routes method components) ∧
    (∀ m ∈ firstMatch routes method components, m.1.hasVariableParams = false →
      m.2.length = m.1.paramNum) ∧
    findRouting routes method components = expected routes method components

/-- The components of a path that stand where a pattern has no literal. -/
def besideLiterals : List Text → List Text → List Text
  | [], xs => xs
  | _ :: _, [] => []
  | c :: cs, x :: xs =>
    if c = PARAM ∨ c = PARAMS then x :: besideLiterals cs xs else besideLiterals cs xs

/-- A route that passes the test of the search, and has `:params` nowhere but at its end. -/
def trailing (method : HttpMethod) (components : List Text) (rt : TRoute) : Bool :=
  fits method components rt && !rt.componentList.dropLast.contains PARAMS

/-- The first route that passes the test does not spoil the search: it has `:params` at its end
only, and does not begin with `:param` if the path is `/`. One with `:params` before its end does no
harm where the first route that is read as it should be has the same action, and the literals of
both leave the same components of the path. -/
def Unspoiled (routes : List TRoute) (method : HttpMethod) (components : List Text) : Prop :=
  ∀ rt, routes.find? (fits method components) = some rt →
    if PARAMS ∈ rt.componentList.dropLast then
      ∃ r, routes.find? (trailing method components) = some r ∧
        r.controller = rt.controller ∧ r.action = rt.action ∧ ¬ IsRootParam r components ∧
        (components = [[]] ∨
          besideLiterals r.componentList components = besideLiterals rt.componentList components)
    else ¬ IsRootParam rt components

lemma erase_keywords (cs xs : List Text) : erase (keywords cs) xs = besideLiterals cs xs := by
  induction cs generalizing xs with
  | nil => rfl
  | cons c cs ih =>
    cases xs with
    | nil => exact erase_nil _
    | cons x xs =>
      rw [besideLiterals]
      by_cases hc : c = PARAM ∨ c = PARAMS
      · rw [if_pos hc, keywords, if_pos hc, erase_succ, ih]
      · rw [if_neg hc, erase_literal hc, ih]

lemma taken_eq_iff {r : TRoute} (hr : Routed r) (hrt : Routed rt) : taken r xs = taken rt xs ↔
    xs = [[]] ∨ besideLiterals r.componentList xs = besideLiterals rt.componentList xs := by
  rw [taken, taken, hr.keywords, hrt.keywords, erase_keywords, erase_keywords]
  by_cases hxs : xs = [[]]
  · rw [if_pos hxs, if_pos hxs]
    exact iff_of_true rfl (.inl hxs)
  · rw [if_neg hxs, if_neg hxs, or_iff_right hxs]

lemma trailing_iff : trailing method xs rt = true ↔
    fits method xs rt = true ∧ PARAMS ∉ rt.componentList.dropLast := by
  simp [trailing]

lemma findRouting_eq (routes : List TRoute) (method : HttpMethod) (xs : List Text) :
    findRouting routes method xs =
      ((routes.find? (fits method xs)).map fun rt => routing rt (taken rt xs)).getD .none := by
  rw [findRouting]
  cases routes.find? (fits method xs) <;> rfl

lemma Routed.trailing_of_matched (hr : Routed rt) (h : matched method xs rt = some ps) :
    trailing method xs rt = true := by
  refine trailing_iff.mpr ⟨hr.fits_of_matched h, ?_⟩
  rw [matched] at h
  split_ifs at h with hmethod hroot
  · rw [hroot.1]
    exact List.not_mem_nil
  · exact trailing_of_takes h

lemma firstMatch_of_not_trailing {routes : List TRoute} (h : ∀ rt ∈ routes, Routed rt)
    (htrailing : ∀ rt ∈ routes, ¬ trailing method xs rt = true) :
    firstMatch routes method xs = none := by
  rw [firstMatch, List.findSome?_eq_none_iff]
  intro rt hrt
  rw [Option.map_eq_none_iff, Option.eq_none_iff_forall_not_mem]
  exact fun ps hps => htrailing rt hrt ((h rt hrt).trailing_of_matched hps)

lemma firstMatch_of_trailing {routes : List TRoute} (h : ∀ rt ∈ routes, Routed rt)
    (hfind : routes.find? (trailing method xs) = some rt)
    (hmatched : matched method xs rt = some ps) : firstMatch routes method xs = some (rt, ps) := by
  obtain ⟨-, before, behind, rfl, hbefore⟩ := List.find?_eq_some_iff_append.mp hfind
  have hnone : firstMatch before method xs = none :=
    firstMatch_of_not_trailing (fun r hr => h r (List.mem_append_left _ hr)) fun r hr => by
      simpa using hbefore r hr
  rw [firstMatch] at hnone ⊢
  rw [List.findSome?_append, hnone, Option.none_or, List.findSome?_cons, hmatched]
  rfl

lemma find_trailing {routes : List TRoute} (hfind : routes.find? (fits method xs) = some rt)
    (ht : PARAMS ∉ rt.componentList.dropLast) :
    routes.find? (trailing method xs) = some rt := by
  obtain ⟨hfits, before, behind, rfl, hbefore⟩ := List.find?_eq_some_iff_append.mp hfind
  refine List.find?_eq_some_iff_append.mpr
    ⟨trailing_iff.mpr ⟨hfits, ht⟩, before, behind, rfl, fun r hr => ?_⟩
  have hr := hbefore r hr
  rw [Bool.not_eq_true'] at hr
  rw [trailing, hr, Bool.false_and]
  rfl

lemma length_of_firstMatch {routes : List TRoute} (h : ∀ rt ∈ routes, Routed rt) :
    ∀ m ∈ firstMatch routes method xs, m.1.hasVariableParams = false →
      m.2.length = m.1.paramNum := by
  rintro ⟨rt, ps⟩ hm hvariable
  obtain ⟨r, hr, hmap⟩ := List.exists_of_findSome?_eq_some hm
  obtain ⟨qs, hmatched, heq⟩ := Option.map_eq_some_iff.mp hmap
  obtain ⟨rfl, rfl⟩ := Prod.mk.inj heq
  have hparams : PARAMS ∉ r.componentList := by
    simpa [(h r hr).hasVariableParams] using hvariable
  rw [matched] at hmatched
  split_ifs at hmatched with hmethod hroot
  · exact absurd (hroot.1 ▸ List.mem_singleton_self _) hparams
  · rw [(h r hr).paramNum]
    exact length_of_takes hmatched hparams

lemma firstMatch_eq {routes : List TRoute} (h : ∀ rt ∈ routes, Routed rt) {r : TRoute}
    (hfind : routes.find? (trailing method xs) = some r) :
    (IsRootParam r xs ∧ ∃ ps, firstMatch routes method xs = some (r, [] :: ps)) ∨
      (¬ IsRootParam r xs ∧ firstMatch routes method xs = some (r, taken r xs)) := by
  have hr := h r (List.mem_of_find?_eq_some hfind)
  obtain ⟨hfits, ht⟩ := trailing_iff.mp (List.find?_some hfind)
  by_cases hroot : IsRootParam r xs
  · obtain ⟨ps, hps⟩ := hr.matched_root ht hfits hroot
    exact .inl ⟨hroot, ps, firstMatch_of_trailing h hfind hps⟩
  · exact .inr ⟨hroot, firstMatch_of_trailing h hfind (hr.matched_of_fits ht hfits hroot)⟩

lemma routing_eq_iff {r : TRoute} : routing rt xs = routing r ps ↔
    r.controller = rt.controller ∧ r.action = rt.action ∧ ps = xs := by
  simp only [routing, TRouting.mk.injEq, true_and]
  exact ⟨fun ⟨h1, h2, h3⟩ => ⟨h1.symm, h2.symm, h3.symm⟩,
    fun ⟨h1, h2, h3⟩ => ⟨h1.symm, h2.symm, h3.symm⟩⟩

/-- **The first match** is returned, unless a route is spoiled. -/
theorem findsFirst_iff (u : Unicode) (lines : List Text) (method : HttpMethod) (path : Text) :
    FindsFirst (table u lines) method (splitPath path) ↔
      Unspoiled (table u lines) method (splitPath path) := by
  set routes := table u lines with hroutes
  set xs := splitPath path with hxs
  have hr : ∀ rt ∈ routes, Routed rt := fun rt hrt => routed_of_mem hrt
  rw [FindsFirst, and_iff_right (checkedRouting_eq hr), and_iff_right (length_of_firstMatch hr),
    findRouting_eq, expected, Unspoiled]
  cases hfind : routes.find? (fits method xs) with
  | none =>
    have hnone := firstMatch_of_not_trailing hr fun rt hrt ht =>
      List.find?_eq_none.mp hfind rt hrt (trailing_iff.mp ht).1
    rw [hnone]
    simp
  | some rt =>
    have hrt := hr rt (List.mem_of_find?_eq_some hfind)
    simp only [Option.some.injEq, forall_eq', Option.map_some, Option.getD_some]
    by_cases ht : PARAMS ∈ rt.componentList.dropLast
    · -- a route that should not have been read, and does not match
      rw [if_pos ht]
      cases htrailing : routes.find? (trailing method xs) with
      | none =>
        rw [firstMatch_of_not_trailing hr (List.find?_eq_none.mp htrailing)]
        exact iff_of_false (by simp [routing, TRouting.none]) (by simp)
      | some r =>
        have hr' := hr r (List.mem_of_find?_eq_some htrailing)
        simp only [Option.some.injEq, exists_eq_left']
        rcases firstMatch_eq hr htrailing with ⟨hroot, ps, hfirst⟩ | ⟨hroot, hfirst⟩
        · rw [hfirst, Option.map_some, Option.getD_some, routing_eq_iff, taken, if_pos hroot.1]
          exact iff_of_false (fun h => List.cons_ne_nil _ _ h.2.2) fun h => h.2.2.1 hroot
        · rw [hfirst, Option.map_some, Option.getD_some, routing_eq_iff, taken_eq_iff hr' hrt,
            and_iff_right hroot]
    · rw [if_neg ht]
      rcases firstMatch_eq hr (find_trailing hfind ht) with ⟨hroot, ps, hfirst⟩ | ⟨hroot, hfirst⟩
      · rw [hfirst, Option.map_some, Option.getD_some, routing_eq_iff, taken, if_pos hroot.1]
        exact iff_of_false (fun h => List.cons_ne_nil _ _ h.2.2) (not_not_intro hroot)
      · rw [hfirst]
        exact iff_of_true rfl hroot

/-- **The root path** reaches an action with one parameter without any. -/
theorem not_findsFirst_root :
    ¬ FindsFirst (table latin [text "get /:param Item#show"]) .get (splitPath (text "/")) :=
  fun h => absurd h.2.2 (by decide)

/-- A route with `:params` in the middle is read, and taken for a path that it does not match. -/
example : ¬ FindsFirst (table latin [text "get /:params/by:params Item#show"]) .get
    (splitPath (text "/a/by:params/b")) :=
  fun h => absurd h.2.2 (by decide)

end TreeFrog.UrlMatch
