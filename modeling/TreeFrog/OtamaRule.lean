import TreeFrog.Otama

/-!
A logic file whose only rule wraps an element into two blocks of code, `: pre %% post`: what the
converter reads from it.
-/

namespace TreeFrog.Otama

open ErbParser hiding parse parseLoop
open Search

variable {pre post : QString}

/-! ### White space -/

section Trim

variable {s t w : QString}

def Blank (w : QString) : Prop := ∀ c ∈ w, isSpace c

lemma trimmed_append_blank (hw : Blank w) (s : QString) : trimmed (s ++ w) = trimmed s := by
  have hr : ∀ l : QString, (l ++ w).rdropWhile isSpace = l.rdropWhile isSpace := by
    intro l
    rw [List.rdropWhile, List.reverse_append, List.dropWhile_append_of_pos, List.rdropWhile]
    exact fun c hc => hw c (List.mem_reverse.mp hc)
  rw [trimmed, trimmed, List.dropWhile_append]
  split_ifs with h
  · rw [List.isEmpty_iff.mp h, List.dropWhile_eq_nil_iff.mpr hw]
  · exact hr _

lemma trimmed_rdropWhile (s : QString) : trimmed (s.rdropWhile isSpace) = trimmed s := by
  have hblank : Blank (s.rtakeWhile isSpace) := fun c hc => List.mem_rtakeWhile_imp hc
  calc trimmed (s.rdropWhile isSpace)
      = trimmed (s.rdropWhile isSpace ++ s.rtakeWhile isSpace) :=
        (trimmed_append_blank hblank _).symm
    _ = trimmed s := by rw [List.rdropWhile_append_rtakeWhile]

lemma trimmed_dropWhile (s : QString) : trimmed (s.dropWhile isSpace) = trimmed s := by
  rw [trimmed, trimmed, List.dropWhile_idempotent]

lemma trimmed_eq_nil_iff : trimmed s = [] ↔ s.dropWhile isSpace = [] := by
  rw [trimmed, List.rdropWhile_eq_nil_iff]
  constructor
  · intro h
    by_contra hne
    obtain ⟨c, u, hu⟩ := List.exists_cons_of_ne_nil hne
    have hc : isSpace c = false := by
      have := List.head_dropWhile_not isSpace hne
      simpa [hu] using this
    simp [hu, hc] at h
  · intro h c hc
    rw [h] at hc
    cases hc

lemma rdropWhile_behind {c : Char} (hc : isSpace c = false) (s t : QString) :
    (s ++ c :: t).rdropWhile isSpace = s ++ c :: t.rdropWhile isSpace := by
  induction t using List.reverseRecOn with
  | nil => rw [List.rdropWhile_concat_neg _ _ _ (by simp [hc]), List.rdropWhile_nil]
  | append_singleton t x ih =>
    rw [← List.cons_append, ← List.append_assoc, List.rdropWhile_concat, List.rdropWhile_concat]
    split_ifs
    · exact ih
    · simp

end Trim

/-! ### The rule -/

/-- The value that the parser keeps for the rule. -/
def rule (pre post : QString) : QString := trimmed (lit ": " ++ pre ++ lit " %% " ++ post)

/-- What is left of the part behind the marker. -/
def rest (post : QString) : QString := (' ' :: post).rdropWhile isSpace

lemma trimmed_rest (post : QString) : trimmed (rest post) = trimmed post := by
  rw [rest, trimmed_rdropWhile, trimmed, trimmed, List.dropWhile_cons_of_pos (by decide)]

lemma rule_eq (pre post : QString) : rule pre post =
    ':' :: ' ' :: (pre ++ ' ' :: (lit "%%" ++ rest post)) := by
  have hsplit : lit ": " ++ pre ++ lit " %% " ++ post =
      ':' :: ' ' :: (pre ++ [' ', '%']) ++ '%' :: (' ' :: post) := by simp [lit]
  rw [rule, hsplit, trimmed, List.cons_append, List.dropWhile_cons_of_neg (by decide),
    ← List.cons_append, rdropWhile_behind (by decide)]
  simp [rest, lit]

lemma trimmed_rule (hpre : trimmed pre ≠ []) : trimmed ((rule pre post).drop 1) =
    pre.dropWhile isSpace ++ ' ' :: (lit "%%" ++ rest post) := by
  have hne : pre.dropWhile isSpace ≠ [] := fun h => hpre (trimmed_eq_nil_iff.mpr h)
  rw [rule_eq, List.drop_one, List.tail_cons, trimmed, List.dropWhile_cons_of_pos (by decide),
    List.dropWhile_append, if_neg (by simpa using hne)]
  have hsplit : pre.dropWhile isSpace ++ ' ' :: (lit "%%" ++ rest post) =
      (pre.dropWhile isSpace ++ [' ', '%']) ++ '%' :: rest post := by simp [lit]
  rw [hsplit, rdropWhile_behind (by decide), rest, List.rdropWhile_idempotent]

/-! ### What the converter reads -/

namespace OtmParser

/-- The logic file has one rule, that for the label. -/
structure OnlyRule (otm : OtmParser) (label pre post : QString) : Prop where
  marker : otm.repMarker = lit "%%"
  entries : otm.entries = [(label, rule pre post)]

variable {otm : OtmParser} {label : QString}

lemma search_rule (h : ¬ lit "%%" <:+: pre) : search (lit "%%") (rule pre post) =
    some (pre.length + 3) := by
  have hfence : ¬ lit "%%" <:+: ':' :: ' ' :: pre := by
    rw [List.infix_cons_iff, List.infix_cons_iff]
    rintro (hp | hp | hp)
    · simp [lit] at hp
    · simp [lit] at hp
    · exact h hp
  have hfound : search (lit "%%") (lit "%%" ++ rest post) = some 0 :=
    search_eq_zero (List.prefix_append _ _)
  rw [rule_eq, ← List.cons_append, ← List.cons_append, search_fence (by decide) hfence, hfound]
  simp

lemma split_rule (hpre : trimmed pre ≠ []) (h : ¬ lit "%%" <:+: pre) (h' : ¬ lit "%%" <:+: post) :
    ∃ val vals, split (lit "%%") (trimmed ((rule pre post).drop 1)) = val :: vals ∧
      trimmed val = trimmed pre ∧ trimmed (vals.headD []) = trimmed post := by
  have hfirst : search (lit "%%") (pre.dropWhile isSpace ++ ' ' :: (lit "%%" ++ rest post)) =
      some ((pre.dropWhile isSpace).length + 1) := by
    have hfound : search (lit "%%") (lit "%%" ++ rest post) = some 0 :=
      search_eq_zero (List.prefix_append _ _)
    rw [search_fence (by decide) fun hp => h (hp.trans (List.dropWhile_suffix _).isInfix), hfound]
    simp
  -- no second marker is in what follows
  have hlast : search (lit "%%") (rest post) = none := by
    refine search_eq_none fun hp => ?_
    have hp' : lit "%%" <:+: ' ' :: post := hp.trans (List.rdropWhile_prefix _ _).isInfix
    rcases List.infix_cons_iff.mp hp' with hp' | hp'
    · simp [lit] at hp'
    · exact h' hp'
  have hpieces : ∀ turns, pieces (lit "%%") turns (rest post) = [rest post] := by
    rintro (_ | turns)
    · rfl
    · rw [pieces, hlast]
  have hlength : (pre.dropWhile isSpace ++ ' ' :: (lit "%%" ++ rest post)).length =
      ((pre.dropWhile isSpace).length + 2 + (rest post).length) + 1 := by
    simp [lit]
    omega
  have hsplit : split (lit "%%") (trimmed ((rule pre post).drop 1)) =
      [pre.dropWhile isSpace ++ [' '], rest post].filter (· ≠ []) := by
    have htake : (pre.dropWhile isSpace ++ ' ' :: (lit "%%" ++ rest post)).take
        ((pre.dropWhile isSpace).length + 1) = pre.dropWhile isSpace ++ [' '] := by
      rw [List.take_length_add_append]
      rfl
    have hdrop : (pre.dropWhile isSpace ++ ' ' :: (lit "%%" ++ rest post)).drop
        ((pre.dropWhile isSpace).length + 1 + (lit "%%").length) = rest post := by
      rw [Nat.add_assoc, List.drop_length_add_append]
      rfl
    rw [trimmed_rule hpre, split, hlength, pieces, hfirst]
    simp only [htake, hdrop, hpieces]
  have hval : trimmed (pre.dropWhile isSpace ++ [' ']) = trimmed pre := by
    rw [trimmed_append_blank (by simp [Blank, isSpace]), trimmed_dropWhile]
  rw [hsplit, List.filter_cons_of_pos (by simp)]
  refine ⟨_, _, rfl, hval, ?_⟩
  by_cases hnil : rest post = []
  · rw [← trimmed_rest post, hnil]
    rfl
  · rw [List.filter_cons_of_pos (by simpa using hnil), List.headD_cons, trimmed_rest]

lemma values_eq (h : otm.OnlyRule label pre post) (l : QString) :
    otm.values l = if label = l then [rule pre post] else [] := by
  rw [values, h.entries]
  split_ifs with hl <;> simp [hl]

lemma labelEnd_pos {line : QString} {i : ℕ} (h : labelEnd line = some i) : 0 < i := by
  rw [labelEnd] at h
  split_ifs at h
  have := Option.some.inj h
  omega

lemma Reading.step_label {st : Reading} (h : ∀ r ∈ st.entries, r.1 ≠ []) (line : QString) :
    ∀ r ∈ (st.step line).entries, r.1 ≠ [] := by
  rw [Reading.step]
  split_ifs with hblank hlabel hcont hstart hinclude
  · exact h
  · rw [List.forall_mem_cons]
    exact ⟨by simpa using hlabel, h⟩
  · exact h
  · have hne : line ≠ [] := by
      rintro rfl
      simp [isLabelLine] at hstart
    rw [List.forall_mem_cons]
    refine ⟨?_, h⟩
    cases hend : labelEnd line with
    | none => simpa using hne
    | some i =>
      have hpos := labelEnd_pos hend
      simpa [hne] using hpos.ne'
  · cases labelEnd line <;> exact h
  · exact h

lemma label_ne (h : otm.OnlyRule label pre post) {text : QString}
    (hotm : otm = OtmParser.parse (lit "%%") text) : label ≠ [] := by
  have hkeep : ∀ (ls : List QString) (st : Reading), (∀ r ∈ st.entries, r.1 ≠ []) →
      ∀ r ∈ (ls.foldl Reading.step st).entries, r.1 ≠ [] := by
    intro ls
    induction ls with
    | nil => exact fun st hst => hst
    | cons line ls ih => exact fun st hst => ih _ (Reading.step_label hst line)
  have hall : ∀ r ∈ otm.entries, r.1 ≠ [] := by
    rw [hotm]
    exact hkeep _ {} (by simp)
  exact hall (label, rule pre post) (by rw [h.entries]; simp)

section OnlyRule

variable (h : otm.OnlyRule label pre post) (hpre : ¬ lit "%%" <:+: pre)

include h hpre in
lemma getSrcCode_eq (l : QString) (op : OperatorType) : otm.getSrcCode l op = ([], .none) := by
  have hmarked : ∀ s ∈ otm.values l, otm.contains s = true := by
    intro s hs
    rw [values_eq h] at hs
    split_ifs at hs
    · rw [List.mem_singleton.mp hs, contains, h.marker, search_rule hpre]
      rfl
    · cases hs
  have hnone : ((otm.values l).find? fun s => (opHash op).isPrefixOf s && !otm.contains s) = none :=
    List.find?_eq_none.mpr fun s hs => by simp [hmarked s hs]
  rw [getSrcCode, hnone]

include h in
lemma getWrapSrcCode_ne {l : QString} (hl : label ≠ l) (op : OperatorType) :
    otm.getWrapSrcCode l op = [] := by
  rw [getWrapSrcCode, values_eq h, if_neg hl]
  split_ifs <;> rfl

include h in
lemma getWrapSrcCode_content (l : QString) : otm.getWrapSrcCode l .contentAssignment = [] := by
  rw [getWrapSrcCode, values_eq h, rule_eq]
  split_ifs <;> rfl

include h hpre in
lemma getWrapSrcCode_rule (hne : trimmed pre ≠ []) (hpost : ¬ lit "%%" <:+: post) :
    ∃ val vals, otm.getWrapSrcCode label .tagReplacement = val :: vals ∧
      trimmed val = trimmed pre ∧ trimmed (vals.headD []) = trimmed post := by
  have hfind : ([rule pre post].find? fun s =>
      (opHash .tagReplacement).isPrefixOf s && otm.contains s) = some (rule pre post) := by
    refine List.find?_cons_of_pos ?_
    rw [contains, h.marker, search_rule hpre, rule_eq]
    rfl
  rw [getWrapSrcCode, values_eq h, if_pos rfl, if_pos (.inl rfl), hfind, h.marker]
  exact split_rule hne hpre hpost

include h in
lemma includeStrings_eq (hl : label ≠ includeLabel) : otm.includeStrings = [] := by
  rw [includeStrings, values_eq h, if_neg hl, List.map_nil]

include h in
lemma getInitSrcCode_eq (hl : label ≠ initLabel) : otm.getInitSrcCode = [] := by
  rw [getInitSrcCode, values_eq h, if_neg hl]
  rfl

end OnlyRule

end OtmParser

end TreeFrog.Otama
