import TreeFrog.HtmlScan

/-!
What the scanner of `THtmlParser` reads of a start tag: the turns of `parseAttributes`, where it
stops, and what is behind the tag.
-/

namespace TreeFrog.HtmlTag

open ErbParser HtmlElement Regular HtmlScan

variable {s r : QString} {as : List Attribute}

/-! ### The end of a tag is not lost -/

lemma skipWhiteSpace_suffix (s : QString) : skipWhiteSpace s <:+ s := List.dropWhile_suffix _

lemma skipWhiteSpace_skipWhiteSpace (s : QString) :
    skipWhiteSpace (skipWhiteSpace s) = skipWhiteSpace s := by
  have h := dropWhile_run (w := []) (by simp) (head_dropWhile isSpace s)
  rwa [List.nil_append] at h

lemma spaces_skipWhiteSpace (s : QString) : s.takeWhile isSpace ++ skipWhiteSpace s = s :=
  List.takeWhile_append_dropWhile

lemma parseWord_suffix (s : QString) : (parseWord s).2 <:+ s := ⟨_, parseWord_append s⟩

lemma parseValue_cases (s : QString) :
    (∃ r, skipWhiteSpace s = '=' :: r ∧
      parseValue s = (some (parseWord (skipWhiteSpace r)).1, (parseWord (skipWhiteSpace r)).2)) ∨
    ((skipWhiteSpace s).head? ≠ some '=' ∧ parseValue s = (none, skipWhiteSpace s)) := by
  by_cases h : (skipWhiteSpace s).head? = some '='
  · obtain ⟨r, hr⟩ := List.head?_eq_some_iff.mp h
    refine .inl ⟨r, hr, ?_⟩
    simp only [parseValue, hr, List.head?_cons, if_true, List.drop_one, List.tail_cons]
  · exact .inr ⟨h, by simp only [parseValue, if_neg h]⟩

lemma parseValue_suffix (s : QString) : (parseValue s).2 <:+ s := by
  rcases parseValue_cases s with ⟨r, hr, h⟩ | ⟨-, h⟩
  · rw [h]
    refine (parseWord_suffix _).trans ((skipWhiteSpace_suffix r).trans ?_)
    exact (List.suffix_cons '=' r).trans (hr ▸ skipWhiteSpace_suffix s)
  · rw [h]
    exact skipWhiteSpace_suffix s

/-- What is read in the same way in front of a plain character and behind it, except for a slash,
and in front of a quotation and behind it. -/
structure Passes {β : Type*} (f : QString → β) : Prop where
  plain : ∀ c r, isPlain c → c ≠ '/' → f (c :: r) = f r
  quoted : ∀ q w r, isQuote q → q ∉ w → f (q :: (w ++ q :: r)) = f r

lemma tagBody_passes : Passes (tagBody none) where
  plain _ r hc _ := tagBody_plain hc r
  quoted _ _ r hq hw := tagBody_quoted hq hw r

namespace Passes

variable {β : Type*} {f : QString → β} (hf : Passes f)
include hf

lemma append {w : QString} (hw : ∀ c ∈ w, isPlain c ∧ c ≠ '/') (r : QString) :
    f (w ++ r) = f r := by
  induction w with
  | nil => rfl
  | cons c w ih =>
    obtain ⟨hc, hne⟩ := hw c List.mem_cons_self
    rw [List.cons_append, hf.plain c _ hc hne, ih fun d hd => hw d (List.mem_cons_of_mem _ hd)]

lemma skipWhiteSpace (s : QString) : f (skipWhiteSpace s) = f s := by
  conv_rhs => rw [← spaces_skipWhiteSpace s]
  refine (hf.append (fun c hc => ?_) _).symm
  have hspace := mem_takeWhile hc
  refine ⟨isPlain_of_isSpace hspace, ?_⟩
  rintro rfl
  exact absurd hspace (by decide)

lemma parseWord (s : QString) : f (parseWord s).2 = f s := by
  rcases parseWord_cases s with ⟨q, w, r, hq, hw, rfl, h⟩ | ⟨-, h⟩
  · rw [h, hf.quoted q w r hq hw]
  · have happ : s.takeWhile isWordChar ++ (HtmlScan.parseWord s).2 = s := by
      rw [h]
      exact List.takeWhile_append_dropWhile
    conv_rhs => rw [← happ]
    refine (hf.append (fun c hc => ?_) _).symm
    have hword := mem_takeWhile hc
    refine ⟨isPlain_of_isWordChar hword, ?_⟩
    rintro rfl
    exact absurd hword (by decide)

lemma parseValue (s : QString) : f (parseValue s).2 = f s := by
  rcases parseValue_cases s with ⟨r, hr, h⟩ | ⟨-, h⟩
  · rw [h, hf.parseWord, hf.skipWhiteSpace, ← hf.skipWhiteSpace s, hr,
      hf.plain '=' r (by decide) (by decide)]
  · rw [h, hf.skipWhiteSpace]

lemma next (s : QString) :
    f (HtmlScan.parseValue (HtmlScan.parseWord (HtmlScan.skipWhiteSpace s)).2).2 = f s := by
  rw [hf.parseValue, hf.parseWord, hf.skipWhiteSpace]

end Passes

lemma parseWord_of_not {c : Char} (hc : isWordChar c = false) (hq : isQuote c = false)
    (r : QString) : parseWord (c :: r) = ([], c :: r) := by
  rw [parseWord, if_neg (by simp [hq]), List.takeWhile_cons_of_neg (by simp [hc]),
    List.dropWhile_cons_of_neg (by simp [hc])]

/-- In a tag there is a word unless it ends here, or white space, a slash or an equals sign is
here. -/
lemma head_of_parseWord_nil (h : tagBody none s) (hs : (s.head?.any isSpace) = false)
    (hw : (parseWord s).1 = []) :
    (parseWord s).2 = s ∧ (s.head? = some '>' ∨ s.head? = some '/' ∨ s.head? = some '=') := by
  have happ := parseWord_append s
  rw [hw, List.nil_append] at happ
  refine ⟨happ, ?_⟩
  rcases s with _ | ⟨c, s⟩
  · exact absurd h (by decide)
  rcases parseWord_cases (c :: s) with ⟨q, w, r, -, -, -, heq⟩ | ⟨hno, heq⟩
  · rw [heq] at hw
    exact absurd hw (List.cons_ne_nil _ _)
  rw [heq] at hw
  have hword : isWordChar c = false := by
    by_contra hc
    rw [List.takeWhile_cons_of_pos (Bool.of_not_eq_false hc)] at hw
    exact absurd hw (List.cons_ne_nil _ _)
  rw [tagBody] at h
  split_ifs at h with hgt hq
  · exact .inl (congrArg some hgt)
  · obtain ⟨w, r, -, rfl, -⟩ := tagBody_quote.mp h
    exact absurd (by simp) (hno c _ rfl hq)
  · have hspace : isSpace c = false := hs
    rw [Bool.and_eq_true] at h
    simp only [isWordChar, h.1, hspace, Bool.true_and, Bool.not_false, Bool.and_true,
      Bool.and_eq_false_iff, decide_eq_false_iff_not, not_not, ne_eq] at hword
    rcases hword with rfl | rfl
    · exact .inr (.inl rfl)
    · exact .inr (.inr rfl)

/-! ### The turns of `parseAttributes` -/

/-- The run of `parseAttributes` from `s`: it reads the attributes and stops at `r`. -/
inductive Reads : QString → List Attribute → QString → Prop where
  | stop {s : QString}
      (h : (skipWhiteSpace s).head? = some '>' ∨ (skipWhiteSpace s).head? = some '/') :
      Reads s [] (skipWhiteSpace s)
  | equals {s : QString} (h : (skipWhiteSpace s).head? = some '=') :
      Reads s (newline s) (skipWhiteSpace s)
  | next {s : QString} {as : List Attribute} {r : QString}
      (hkey : (parseWord (skipWhiteSpace s)).1 ≠ [])
      (h : Reads (parseValue (parseWord (skipWhiteSpace s)).2).2 as r) :
      Reads s (newline s ++ ((parseWord (skipWhiteSpace s)).1,
        (parseValue (parseWord (skipWhiteSpace s)).2).1) :: as) r

lemma head_skipWhiteSpace (s : QString) : ((skipWhiteSpace s).head?.any isSpace) = false := by
  have h := head_dropWhile isSpace s
  cases hs : skipWhiteSpace s with
  | nil => rfl
  | cons c r => exact h c (by rw [← skipWhiteSpace, hs]; rfl)

lemma length_next (hkey : (parseWord (skipWhiteSpace s)).1 ≠ []) :
    (parseValue (parseWord (skipWhiteSpace s)).2).2.length < s.length := by
  have h₁ := congrArg List.length (parseWord_append (skipWhiteSpace s))
  rw [List.length_append] at h₁
  have h₂ := (parseValue_suffix (parseWord (skipWhiteSpace s)).2).length_le
  have h₃ := (skipWhiteSpace_suffix s).length_le
  have h₄ := List.length_pos_iff.mpr hkey
  omega

/-- **`parseAttributes` ends, and reads no character behind the text**, in all that is taken for
a tag. -/
theorem parseAttributes_reads {fuel : ℕ} (hfuel : s.length ≤ fuel) (h : tagBody none s) :
    ∃ as r, parseAttributes fuel s = .ok (as, r) ∧ Reads s as r := by
  induction fuel generalizing s with
  | zero => exact absurd (List.length_eq_zero_iff.mp (Nat.le_zero.mp hfuel)) (tagBody_ne_nil h)
  | succ fuel ih =>
    have hbody : tagBody none (skipWhiteSpace s) := by rwa [tagBody_passes.skipWhiteSpace]
    have hempty : s.isEmpty = false := by simpa using tagBody_ne_nil h
    obtain ⟨c, t, hc⟩ := List.exists_cons_of_ne_nil (tagBody_ne_nil hbody)
    rw [parseAttributes, hempty, hc]
    simp only [charAt, Except.bind, Bool.false_eq_true, if_false]
    split_ifs with hstop hkey
    · exact ⟨_, _, rfl, hc ▸ .stop (by simpa [hc] using hstop)⟩
    · -- no key: only an equals sign is left
      rw [← hc, List.isEmpty_iff] at hkey
      obtain ⟨hrest, hhead⟩ := head_of_parseWord_nil hbody (head_skipWhiteSpace s) hkey
      rw [← hc, hrest]
      refine ⟨_, _, rfl, .equals ?_⟩
      rw [hc] at hhead ⊢
      simpa [not_or.mp hstop] using hhead
    · rw [← hc] at hkey ⊢
      have hne : (parseWord (skipWhiteSpace s)).1 ≠ [] := by simpa using hkey
      have hlen : (parseValue (parseWord (skipWhiteSpace s)).2).2.length ≤ fuel := by
        have := length_next hne
        omega
      obtain ⟨as, r, hok, hreads⟩ := ih hlen
        (by rwa [tagBody_passes.next])
      rw [hok]
      exact ⟨_, _, rfl, .next hne hreads⟩

namespace Reads

lemma suffix (h : Reads s as r) : r <:+ s := by
  induction h with
  | stop => exact skipWhiteSpace_suffix _
  | equals => exact skipWhiteSpace_suffix _
  | next _ _ ih =>
    exact ih.trans ((parseValue_suffix _).trans ((parseWord_suffix _).trans
      (skipWhiteSpace_suffix _)))

lemma passes {β : Type*} {f : QString → β} (hf : Passes f) (h : Reads s as r) : f r = f s := by
  induction h with
  | stop => exact hf.skipWhiteSpace _
  | equals => exact hf.skipWhiteSpace _
  | next _ _ ih => rw [ih, hf.next]

lemma head (h : Reads s as r) : r.head? = some '>' ∨ r.head? = some '/' ∨ r.head? = some '=' := by
  induction h with
  | stop h => exact h.imp_right .inl
  | equals h => exact .inr (.inr h)
  | next _ _ ih => exact ih

end Reads

/-! ### Where an equals sign may stand -/

/-- What the attributes of a tag are made of. -/
inductive Token where
  | word
  | equals
  deriving DecidableEq, Repr

/-- The words and the equals signs up to the first slash or greater sign outside the quotations. -/
def tokens (s : QString) : List Token :=
  if (skipWhiteSpace s).head? = some '=' then .equals :: tokens ((skipWhiteSpace s).drop 1)
  else if (parseWord (skipWhiteSpace s)).1 = [] then []
  else .word :: tokens (parseWord (skipWhiteSpace s)).2
termination_by s.length
decreasing_by
  · rename_i h
    obtain ⟨r, hr⟩ := List.head?_eq_some_iff.mp h
    have hlen := (skipWhiteSpace_suffix s).length_le
    simp only [hr, List.drop_one, List.tail_cons, List.length_cons] at hlen ⊢
    omega
  · rename_i h
    have h₁ := congrArg List.length (parseWord_append (skipWhiteSpace s))
    rw [List.length_append] at h₁
    have h₂ := (skipWhiteSpace_suffix s).length_le
    have h₃ := List.length_pos_iff.mpr h
    omega

/-- Attributes: words, each alone or with an equals sign and another word as its value. At the end
the value may be missing. -/
inductive Placed : List Token → Prop where
  | nil : Placed []
  | key {ts : List Token} (h : Placed ts) : Placed (.word :: ts)
  | value {ts : List Token} (h : Placed ts) : Placed (.word :: .equals :: .word :: ts)
  | noValue : Placed [.word, .equals]

lemma not_placed_equals (ts : List Token) : ¬Placed (.equals :: ts) := nofun

lemma placed_key {ts : List Token} (hts : ts.head? ≠ some .equals) :
    Placed (.word :: ts) ↔ Placed ts := by
  refine ⟨fun h => ?_, .key⟩
  cases h with
  | key h => exact h
  | value => exact absurd rfl hts
  | noValue => exact absurd rfl hts

lemma placed_value {ts : List Token} : Placed (.word :: .equals :: .word :: ts) ↔ Placed ts := by
  refine ⟨fun h => ?_, .value⟩
  cases h with
  | key h => exact absurd h (not_placed_equals _)
  | value h => exact h

lemma placed_noValue {ts : List Token} (hts : ts.head? ≠ some .word) :
    Placed (.word :: .equals :: ts) ↔ Placed ts := by
  rcases ts with _ | ⟨_ | _, ts⟩
  · exact iff_of_true .noValue .nil
  · exact absurd rfl hts
  · refine iff_of_false (fun h => ?_) (not_placed_equals _)
    cases h with
    | key h => exact absurd h (not_placed_equals _)

lemma tokens_skipWhiteSpace (s : QString) : tokens (skipWhiteSpace s) = tokens s := by
  rw [tokens, skipWhiteSpace_skipWhiteSpace, ← tokens]

lemma tokens_equals (h : skipWhiteSpace s = '=' :: r) : tokens s = .equals :: tokens r := by
  rw [tokens, if_pos (by rw [h]; rfl), h]
  rfl

lemma tokens_word (h : (parseWord (skipWhiteSpace s)).1 ≠ []) :
    tokens s = .word :: tokens (parseWord (skipWhiteSpace s)).2 := by
  have hne : (skipWhiteSpace s).head? ≠ some '=' := by
    intro heq
    obtain ⟨r, hr⟩ := List.head?_eq_some_iff.mp heq
    rw [hr, parseWord_of_not (by decide) (by decide)] at h
    exact h rfl
  rw [tokens, if_neg hne, if_neg h]

lemma tokens_end (hne : (skipWhiteSpace s).head? ≠ some '=')
    (h : (parseWord (skipWhiteSpace s)).1 = []) : tokens s = [] := by
  rw [tokens, if_neg hne, if_pos h]

lemma head_tokens_ne (hne : (skipWhiteSpace s).head? ≠ some '=') :
    (tokens s).head? ≠ some .equals := by
  by_cases h : (parseWord (skipWhiteSpace s)).1 = []
  · rw [tokens_end hne h]
    simp
  · rw [tokens_word h]
    simp

lemma placed_parseValue (s : QString) :
    Placed (.word :: tokens s) ↔ Placed (tokens (parseValue s).2) := by
  rcases parseValue_cases s with ⟨r, hr, h⟩ | ⟨hne, h⟩
  · rw [tokens_equals hr, h]
    by_cases hword : (parseWord (skipWhiteSpace r)).1 = []
    · have hrest := parseWord_append (skipWhiteSpace r)
      rw [hword, List.nil_append] at hrest
      rw [hrest, tokens_skipWhiteSpace]
      refine placed_noValue ?_
      by_cases heq : (skipWhiteSpace r).head? = some '='
      · obtain ⟨u, hu⟩ := List.head?_eq_some_iff.mp heq
        rw [tokens_equals hu]
        simp
      · rw [tokens_end heq hword]
        simp
    · rw [tokens_word hword, placed_value]
  · rw [h, tokens_skipWhiteSpace]
    exact placed_key (head_tokens_ne hne)

lemma Reads.placed (h : Reads s as r) : Placed (tokens s) ↔ r.head? ≠ some '=' := by
  induction h with
  | @stop s h =>
    have hne : (skipWhiteSpace s).head? ≠ some '=' := by rcases h with h | h <;> simp [h]
    refine iff_of_true ?_ hne
    obtain ⟨c, t, hc⟩ := List.exists_cons_of_ne_nil (l := skipWhiteSpace s)
      (by rintro hnil; simp [hnil] at h)
    have hword : (parseWord (skipWhiteSpace s)).1 = [] := by
      rw [hc] at h ⊢
      rcases h with h | h
      · obtain rfl := Option.some.inj h
        rw [parseWord_of_not (by decide) (by decide)]
      · obtain rfl := Option.some.inj h
        rw [parseWord_of_not (by decide) (by decide)]
    rw [tokens_end hne hword]
    exact .nil
  | @equals s h =>
    obtain ⟨t, ht⟩ := List.head?_eq_some_iff.mp h
    rw [tokens_equals ht]
    exact iff_of_false (not_placed_equals _) fun hne => hne h
  | next hkey _ ih => rw [tokens_word hkey, placed_parseValue, ih]

/-! ### What is behind a tag -/

/-- What is behind a tag: it ends at a greater sign outside the quotations or, if a slash comes
before, at the first one behind the slash. -/
def tagEnd : Option Char → QString → QString
  | _, [] => []
  | some q, c :: r => tagEnd (if c = q then none else some q) r
  | none, c :: r =>
    if c = '>' then r
    else if c = '/' then (r.dropWhile (· ≠ '>')).drop 1
    else tagEnd (if isQuote c then some c else none) r

lemma tagEnd_passes : Passes (tagEnd none) where
  plain c r hc hslash := by
    rw [tagEnd, if_neg (isPlain_ne hc (by decide)), if_neg hslash, not_isQuote_of_isPlain hc,
      if_neg (by decide)]
  quoted q w r hq hw := by
    have hgt : q ≠ '>' := by rintro rfl; exact absurd hq (by decide)
    have hslash : q ≠ '/' := by rintro rfl; exact absurd hq (by decide)
    rw [tagEnd, if_neg hgt, if_neg hslash, if_pos hq]
    induction w with
    | nil => rw [List.nil_append, tagEnd, if_pos rfl]
    | cons c w ih =>
      have hc : c ≠ q := fun h => hw (h ▸ List.mem_cons_self)
      rw [List.cons_append, tagEnd, if_neg hc, ih fun h => hw (List.mem_cons_of_mem _ h)]

/-! ### A start tag as a whole -/

lemma not_isWordChar_of_isSpace {c : Char} (h : isSpace c) : isWordChar c = false := by
  simp [isWordChar, h]

lemma tagBody_of_tail (h : tagTail s) :
    tagBody none s ∧ ∀ c ∈ s.head?, isWordChar c = false := by
  rw [tagTail, decide_eq_true_eq] at h
  have hspaces {u : QString} (hu : (u.dropWhile isSpace).head? = some '>') :
      tagBody none u ∧ ∀ c ∈ u.head?, isWordChar c = false := by
    obtain ⟨v, hv⟩ := List.head?_eq_some_iff.mp hu
    have hgt : skipWhiteSpace u = '>' :: v := hv
    refine ⟨by rw [← tagBody_passes.skipWhiteSpace, hgt, tagBody, if_pos rfl], ?_⟩
    intro c hc
    obtain ⟨w, rfl⟩ := List.head?_eq_some_iff.mp hc
    by_cases hspace : isSpace c
    · exact not_isWordChar_of_isSpace hspace
    · rw [skipWhiteSpace, List.dropWhile_cons_of_neg hspace] at hgt
      obtain ⟨rfl, -⟩ := List.cons.inj hgt
      decide
  split_ifs at h with hslash
  · obtain ⟨u, rfl⟩ := List.head?_eq_some_iff.mp hslash
    rw [tagBody_plain (by decide)]
    refine ⟨(hspaces h).1, ?_⟩
    rintro _ ⟨⟩
    decide
  · exact hspaces h

lemma startTag_name (h : isStartTag s) :
    parseWord s = (s.takeWhile isAlnum, afterName s) ∧ s.takeWhile isAlnum ≠ [] ∧
      tagBody none (afterName s) ∧ ∀ c ∈ (afterName s).head?, isWordChar c = false := by
  rw [isStartTag, Bool.and_eq_true, Bool.or_eq_true, Bool.and_eq_true] at h
  obtain ⟨hname, h⟩ := h
  obtain ⟨c, u, rfl, hc⟩ := any_head_iff.mp hname
  have hbody : tagBody none (afterName (c :: u)) ∧
      ∀ d ∈ (afterName (c :: u)).head?, isWordChar d = false := by
    rcases h with ⟨hspace, hbody⟩ | htail
    · refine ⟨hbody, fun d hd => ?_⟩
      rw [hd] at hspace
      exact not_isWordChar_of_isSpace hspace
    · exact tagBody_of_tail htail
  refine ⟨?_, by simp [List.takeWhile_cons_of_pos hc], hbody⟩
  have happ : (c :: u).takeWhile isAlnum ++ afterName (c :: u) = c :: u :=
    List.takeWhile_append_dropWhile
  have hword : ∀ d ∈ (c :: u).takeWhile isAlnum, isWordChar d = true := fun d hd =>
    isWordChar_of_isAlnum (mem_takeWhile hd)
  have hquote := not_isQuote_of_isPlain (isPlain_of_isWordChar (isWordChar_of_isAlnum hc))
  rw [parseWord, if_neg (by simp [hquote])]
  conv_lhs => rw [← happ]
  rw [takeWhile_run hword hbody.2, dropWhile_run hword hbody.2]

/-- How the tag read is finished where `parseAttributes` has stopped. -/
inductive Finished (txt : QString) : QString → StartTag → Prop where
  | greater {name r : QString} {as : List Attribute} :
      Finished txt ('>' :: r) ⟨name, as, none, true, r⟩
  | slash {name r : QString} {as : List Attribute} :
      Finished txt ('/' :: r) ⟨name, as,
        some (((charBefore txt ('/' :: r)).filter fun c => isSpace c || c = '/').toList ++
          ('/' :: r).takeWhile (· ≠ '>')), true, (r.dropWhile (· ≠ '>')).drop 1⟩
  | equals {name r : QString} {as : List Attribute} :
      Finished txt ('=' :: r) ⟨name, as, none, false, '=' :: r⟩

/-- **A start tag is read**, without a character behind the text. -/
theorem readStartTag_ok (txt : QString) (h : isStartTag s) :
    ∃ t r, readStartTag txt s = .ok t ∧ t.name = s.takeWhile isAlnum ∧
      Reads (afterName s) t.attributes r ∧ Finished txt r t := by
  obtain ⟨hword, -, hbody, -⟩ := startTag_name h
  obtain ⟨as, r, hok, hreads⟩ := parseAttributes_reads (Nat.le_succ (afterName s).length) hbody
  rw [readStartTag, hword]
  simp only [hok, Except.bind]
  have hr : tagBody none r := by rwa [hreads.passes tagBody_passes]
  rcases hreads.head with hhead | hhead | hhead <;>
    obtain ⟨u, rfl⟩ := List.head?_eq_some_iff.mp hhead
  · exact ⟨_, _, rfl, rfl, hreads, .greater⟩
  · -- the mark goes up to the next greater sign, which the tag has
    have hmem : '>' ∈ '/' :: u := mem_of_tagBody hr
    obtain ⟨v, hv⟩ := dropWhile_of_mem (show '>' ∈ u by simpa using hmem)
    have hrest : (u.dropWhile (· ≠ '>')).drop 1 = v := by rw [hv]; rfl
    obtain ⟨mark, hmark, hfin⟩ : ∃ mark,
        parseSelfCloseMark (charBefore txt ('/' :: u)) ('/' :: u) = some (mark, '>' :: v) ∧
          Finished txt ('/' :: u) ⟨s.takeWhile isAlnum, as, some mark, true, v⟩ := by
      refine ⟨_, ?_, hrest ▸ Finished.slash⟩
      rw [parseSelfCloseMark, if_pos hmem, List.dropWhile_cons_of_pos (by decide), hv]
    refine ⟨_, _, ?_, rfl, hreads, hfin⟩
    simp only [charAt, if_true, hmark, Option.map_some, Option.getD_some, Except.map, decide_true,
      List.drop_one, List.tail_cons]
  · exact ⟨_, _, rfl, rfl, hreads, .equals⟩

end TreeFrog.HtmlTag
