import TreeFrog.HtmlTag

/-!
What is printed of a start tag, read again. The attributes are printed with one space or newline
between them; the parser reads the same attributes from that, but for an equals sign without a
value, which is not printed.
-/

namespace TreeFrog.HtmlReprint

open ErbParser Regular HtmlElement THtmlElement HtmlScan HtmlTag

variable {s t r w : QString} {as : List Attribute}

/-! ### What counts of a text -/

/-- The characters that decide whether there is a tag. -/
def marks (s : QString) : QString := s.filter fun c => !isPlain c

/-- The characters that are not white space. -/
def strip (s : QString) : QString := s.filter fun c => !isSpace c

@[simp] lemma marks_append (s t : QString) : marks (s ++ t) = marks s ++ marks t :=
  List.filter_append ..

@[simp] lemma strip_append (s t : QString) : strip (s ++ t) = strip s ++ strip t :=
  List.filter_append ..

lemma marks_of_plain (h : ∀ c ∈ w, isPlain c) : marks w = [] :=
  List.filter_eq_nil_iff.mpr fun c hc => by simp [h c hc]

lemma strip_of_space (h : ∀ c ∈ w, isSpace c) : strip w = [] :=
  List.filter_eq_nil_iff.mpr fun c hc => by simp [h c hc]

lemma marks_of_space (h : ∀ c ∈ w, isSpace c) : marks w = [] :=
  marks_of_plain fun c hc => isPlain_of_isSpace (h c hc)

lemma marks_skipWhiteSpace (s : QString) : marks (skipWhiteSpace s) = marks s := by
  conv_rhs => rw [← spaces_skipWhiteSpace s, marks_append,
    marks_of_space fun c hc => mem_takeWhile hc, List.nil_append]

lemma strip_skipWhiteSpace (s : QString) : strip (skipWhiteSpace s) = strip s := by
  conv_rhs => rw [← spaces_skipWhiteSpace s, strip_append,
    strip_of_space fun c hc => mem_takeWhile hc, List.nil_append]

lemma tagBody_marks {q : Option Char} (hq : ∀ m ∈ q, isQuote m) (s : QString) :
    tagBody q s = tagBody q (marks s) := by
  induction s generalizing q with
  | nil => rfl
  | cons c s ih =>
    by_cases hc : isPlain c
    · have hmarks : marks (c :: s) = marks s := List.filter_cons_of_neg (by simp [hc])
      rw [hmarks, ← ih hq]
      rcases q with _ | q
      · exact tagBody_plain hc s
      · have hne : c ≠ q := by
          rintro rfl
          have hquote := hq c rfl
          rw [not_isQuote_of_isPlain hc] at hquote
          exact absurd hquote (by decide)
        rw [tagBody, if_neg hne]
    · have hmarks : marks (c :: s) = c :: marks s := List.filter_cons_of_pos (by simp [hc])
      rw [hmarks]
      rcases q with _ | q
      · rw [tagBody, tagBody]
        split_ifs with hgt hquote
        · rfl
        · exact ih (by simpa using hquote)
        · simp [hc]
      · rw [tagBody, tagBody]
        split_ifs
        · exact ih (by simp)
        · exact ih hq

/-! ### Words -/

inductive IsWord : QString → Prop where
  | quoted {q : Char} {u : QString} (hq : isQuote q) (hu : q ∉ u) : IsWord (q :: (u ++ [q]))
  | plain {w : QString} (hne : w ≠ []) (h : ∀ c ∈ w, isWordChar c) : IsWord w

lemma isWord_parseWord (h : (parseWord s).1 ≠ []) : IsWord (parseWord s).1 := by
  rcases parseWord_cases s with ⟨q, u, r, hq, hu, -, heq⟩ | ⟨-, heq⟩
  · rw [heq]
    exact .quoted hq hu
  · rw [heq] at h ⊢
    exact .plain h fun c hc => mem_takeWhile hc

lemma isSpace_of_isWordChar {c : Char} (h : isWordChar c) : isSpace c = false := by
  simp only [isWordChar, Bool.and_eq_true, Bool.not_eq_true'] at h
  exact h.2

lemma isSpace_of_isQuote {c : Char} (h : isQuote c) : isSpace c = false := by
  simp only [isQuote, Bool.or_eq_true, decide_eq_true_eq] at h
  rcases h with rfl | rfl <;> decide

namespace IsWord

lemma parseWord (h : IsWord w) (ht : ∀ c ∈ t.head?, isWordChar c = false) :
    parseWord (w ++ t) = (w, t) := by
  cases h with
  | @quoted q u hq hu =>
    rw [List.cons_append, List.append_assoc, List.singleton_append, parseWord_quoted hq hu]
  | plain hne h =>
    obtain ⟨c, u, rfl⟩ := List.exists_cons_of_ne_nil hne
    have hc := not_isQuote_of_isPlain (isPlain_of_isWordChar (h c List.mem_cons_self))
    rw [parseWord_plain fun d r heq hd => ?_, takeWhile_run h ht, dropWhile_run h ht]
    obtain ⟨rfl, -⟩ := List.cons.inj heq
    rw [hc] at hd
    exact absurd hd (by decide)

lemma head (h : IsWord w) : ∃ c u, w = c :: u ∧ isSpace c = false ∧ c ≠ '=' := by
  cases h with
  | @quoted q u hq hu =>
    refine ⟨q, _, rfl, isSpace_of_isQuote hq, ?_⟩
    rintro rfl
    exact absurd hq (by decide)
  | plain hne h =>
    obtain ⟨c, u, rfl⟩ := List.exists_cons_of_ne_nil hne
    have hc := h c List.mem_cons_self
    refine ⟨c, u, rfl, isSpace_of_isWordChar hc, ?_⟩
    rintro rfl
    exact absurd hc (by decide)

lemma last (h : IsWord w) : ∃ c, w.getLast? = some c ∧ isSpace c = false ∧ c ≠ '/' := by
  cases h with
  | @quoted q u hq hu =>
    refine ⟨q, by rw [← List.cons_append, List.getLast?_append]; rfl, isSpace_of_isQuote hq, ?_⟩
    rintro rfl
    exact absurd hq (by decide)
  | plain hne h =>
    have hc := h _ (List.getLast_mem hne)
    refine ⟨_, List.getLast?_eq_some_getLast hne, isSpace_of_isWordChar hc, ?_⟩
    intro heq
    rw [heq] at hc
    exact absurd hc (by decide)

end IsWord

/-! ### One attribute -/

/-- The value as it is printed. -/
def valueText (v : Option QString) : QString := if (v.getD []).isEmpty then [] else '=' :: v.getD []

/-- An attribute as it is read again. -/
def bare (a : Attribute) : Attribute := (a.1, a.2.filter fun w => !w.isEmpty)

lemma valueText_bare (v : Option QString) :
    valueText (v.filter fun w => !w.isEmpty) = valueText v := by
  rcases v with _ | _ | ⟨c, w⟩ <;> rfl

/-- The space before an attribute. -/
def separator (string k : QString) : QString :=
  if !(k.head?.any isSpace) && !string.isEmpty && !(string.getLast?.any isSpace) then [' '] else []

lemma appendAttribute_eq (string : QString) (a : Attribute) :
    appendAttribute string a = string ++ separator string a.1 ++ a.1 ++ valueText a.2 := rfl

lemma foldl_bare (string : QString) (as : List Attribute) :
    (as.map bare).foldl appendAttribute string = as.foldl appendAttribute string := by
  rw [List.foldl_map]
  congr 1
  funext string a
  rw [appendAttribute_eq, appendAttribute_eq, bare, valueText_bare]

/-- A text that an attribute is appended to: nothing, or attributes before. -/
def Joins (string : QString) : Prop := ∀ c ∈ string.getLast?, isSpace c = false

lemma newline_cases (s : QString) :
    newline s = [] ∨ newline s = [(lit "\n", none)] ∨ newline s = [(lit "\r\n", none)] := by
  simp only [newline]
  split_ifs
  · exact .inr (.inr rfl)
  · exact .inr (.inl rfl)
  · exact .inl rfl

/-- What is printed before a key. -/
def lead (string s : QString) : QString :=
  if (newline s).isEmpty then (if string.isEmpty then [] else [' ']) else
    (newline s).flatMap fun p => p.1

lemma separator_key {string k : QString} (hstring : Joins string) (hk : IsWord k) :
    separator string k = if string.isEmpty then [] else [' '] := by
  obtain ⟨c, u, rfl, hc, -⟩ := hk.head
  rcases List.eq_nil_or_concat string with rfl | ⟨string, d, rfl⟩
  · simp [separator]
  · have hd : isSpace d = false := hstring d (by simp)
    simp [separator, hc, hd]

lemma foldl_group {string k : QString} (hstring : Joins string) (hk : IsWord k) (s : QString)
    (v : Option QString) (as : List Attribute) :
    (newline s ++ (k, v) :: as).foldl appendAttribute string =
      as.foldl appendAttribute (string ++ (lead string s ++ k ++ valueText v)) := by
  -- behind a newline there is no other space
  have hnl {nl : QString} (hhead : nl.head?.any isSpace) (hlast : nl.getLast?.any isSpace) :
      appendAttribute (appendAttribute string (nl, none)) (k, v) =
        string ++ (nl ++ k ++ valueText v) := by
    have h₁ : separator string nl = [] := by rw [separator, hhead]; rfl
    have h₂ : separator (string ++ nl) k = [] := by
      have hend : (string ++ nl).getLast?.any isSpace := by
        cases hl : nl.getLast? with
        | none => rw [hl] at hlast; exact absurd hlast (by decide)
        | some d => rw [List.getLast?_append, hl]; rw [hl] at hlast; exact hlast
      rw [separator, hend]
      simp
    rw [appendAttribute_eq, appendAttribute_eq, h₁]
    simp only [valueText, Option.getD_none, List.isEmpty_nil, if_true, List.append_nil, h₂,
      List.append_assoc]
  rw [List.foldl_append, List.foldl_cons, lead]
  rcases newline_cases s with h | h | h
  · rw [h, List.foldl_nil, appendAttribute_eq, separator_key hstring hk, List.isEmpty_nil,
      if_pos rfl]
    simp only [List.append_assoc]
  · rw [h, List.foldl_cons, List.foldl_nil, hnl rfl rfl]
    rfl
  · rw [h, List.foldl_cons, List.foldl_nil, hnl rfl rfl]
    rfl

/-! ### All attributes -/

/-- The space behind the name of the tag. -/
def front (string : QString) : QString := if string.isEmpty then [' '] else []

lemma newline_run {u : QString} (hw : ∀ c ∈ w, isSpace c) (hu : ∀ c ∈ u.head?, isSpace c = false) :
    newline (w ++ u) = newline w := by
  have hself : w.takeWhile isSpace = w := List.takeWhile_eq_self_iff.mpr hw
  rw [newline, newline, takeWhile_run hw hu, hself]

lemma newline_skipWhiteSpace (s : QString) : newline (skipWhiteSpace s) = [] := by
  have h := newline_run (w := []) (by simp) (head_dropWhile isSpace s)
  exact h

lemma front_lead_space (string s : QString) : ∀ c ∈ front string ++ lead string s, isSpace c := by
  suffices hall : (front string ++ lead string s).all isSpace by exact List.all_eq_true.mp hall
  rw [front, lead]
  rcases newline_cases s with h | h | h <;> rw [h] <;> split_ifs <;> decide

lemma newline_lead (string s : QString) {u : QString} (hu : ∀ c ∈ u.head?, isSpace c = false) :
    newline (front string ++ lead string s ++ u) = newline s := by
  rw [newline_run (front_lead_space string s) hu, front, lead]
  rcases newline_cases s with h | h | h <;>
    simp only [h, List.isEmpty_nil, List.isEmpty_cons, if_true, Bool.false_eq_true, if_false] <;>
    split_ifs <;> decide

/-- Where the attributes end. -/
def Stops (tail : QString) : Prop :=
  (skipWhiteSpace tail).head? = some '>' ∨ (skipWhiteSpace tail).head? = some '/'

lemma Stops.head {tail : QString} (h : Stops tail) : ∀ c ∈ tail.head?, isWordChar c = false := by
  intro c hc
  obtain ⟨u, rfl⟩ := List.head?_eq_some_iff.mp hc
  by_cases hspace : isSpace c
  · exact not_isWordChar_of_isSpace hspace
  · rw [Stops, skipWhiteSpace, List.dropWhile_cons_of_neg hspace] at h
    rcases h with h | h
    · obtain rfl := Option.some.inj h
      decide
    · obtain rfl := Option.some.inj h
      decide

/-- `T` is printed for the attributes `as`, which were read from `s` up to `r`. -/
structure Printed (string s : QString) (as : List Attribute) (r T : QString) : Prop where
  text : as.foldl appendAttribute string = string ++ T
  nil : as = [] → T = []
  head : string ≠ [] → ∀ c ∈ T.head?, isWordChar c = false
  last : as ≠ [] → ∃ c, T.getLast? = some c ∧ isSpace c = false ∧ c ≠ '/'
  marks : marks s = marks T ++ marks r
  strip : strip s = strip T ++ strip r ∨ strip s = strip T ++ '=' :: strip r
  newline : as ≠ [] → ∀ tail, newline (front string ++ (T ++ tail)) = newline s
  reads : ∀ tail, Stops tail →
    Reads (front string ++ (T ++ tail)) (as.map bare) (skipWhiteSpace tail)

lemma reads_skipWhiteSpace (h : Reads s as r) (hn : as ≠ [] → newline s = []) :
    Reads (skipWhiteSpace s) as r := by
  have hskip := skipWhiteSpace_skipWhiteSpace s
  cases h with
  | stop h =>
    have hstop := Reads.stop (s := skipWhiteSpace s) (by rwa [hskip])
    rwa [hskip] at hstop
  | equals h =>
    have hequals := Reads.equals (s := skipWhiteSpace s) (by rwa [hskip])
    rw [hskip, newline_skipWhiteSpace] at hequals
    by_cases hnil : newline s = []
    · rwa [hnil]
    · exact absurd (hn hnil) hnil
  | next hkey h =>
    have hnext := Reads.next (s := skipWhiteSpace s) (by rwa [hskip]) (by rwa [hskip])
    rw [hskip, newline_skipWhiteSpace] at hnext
    rwa [hn (by simp)]

lemma reads_head (h : Reads s as r) (hr : r.head? ≠ some '=') :
    (skipWhiteSpace s).head? ≠ some '=' := by
  cases h with
  | stop => exact hr
  | equals => exact hr
  | next hkey =>
    intro heq
    obtain ⟨u, hu⟩ := List.head?_eq_some_iff.mp heq
    rw [hu, parseWord_of_not (by decide) (by decide)] at hkey
    exact hkey rfl

lemma printed_stop (string : QString) (s : QString) :
    Printed string s [] (skipWhiteSpace s) [] where
  text := by simp
  nil _ := rfl
  head _ := by simp
  last hne := absurd rfl hne
  marks := (marks_skipWhiteSpace s).symm
  strip := .inl (strip_skipWhiteSpace s).symm
  newline hne := absurd rfl hne
  reads tail htail := by
    have hskip : skipWhiteSpace (front string ++ tail) = skipWhiteSpace tail := by
      rw [front]
      split_ifs
      · rfl
      · rfl
    have hstop := Reads.stop (s := front string ++ tail) (by rwa [hskip])
    rwa [hskip] at hstop

lemma strip_word (h : (parseWord (skipWhiteSpace s)).1 = w) :
    strip s = strip w ++ strip (parseWord (skipWhiteSpace s)).2 ∧
      marks s = marks w ++ marks (parseWord (skipWhiteSpace s)).2 := by
  have happ := parseWord_append (skipWhiteSpace s)
  rw [h] at happ
  rw [← strip_skipWhiteSpace s, ← marks_skipWhiteSpace s, ← strip_append, ← marks_append, happ]
  exact ⟨rfl, rfl⟩

/-- What `parseValue` takes from `s`, and what it leaves. -/
inductive Value : QString → Option QString → QString → Prop where
  | none {s : QString} (h : (skipWhiteSpace s).head? ≠ some '=') : Value s none (skipWhiteSpace s)
  | word {s u w r : QString} (hs : skipWhiteSpace s = '=' :: u) (hw : IsWord w)
      (hu : skipWhiteSpace u = w ++ r) : Value s (some w) r
  | missing {s u : QString} (hs : skipWhiteSpace s = '=' :: u)
      (hu : (parseWord (skipWhiteSpace u)).1 = []) : Value s (some []) (skipWhiteSpace u)

lemma value_parseValue (s : QString) : Value s (parseValue s).1 (parseValue s).2 := by
  rcases parseValue_cases s with ⟨u, hu, h⟩ | ⟨hne, h⟩
  · rw [h]
    by_cases hw : (parseWord (skipWhiteSpace u)).1 = []
    · have happ := parseWord_append (skipWhiteSpace u)
      rw [hw, List.nil_append] at happ
      rw [hw, happ]
      exact .missing hu hw
    · exact .word hu (isWord_parseWord hw) (parseWord_append _).symm
  · rw [h]
    exact .none hne

namespace Value

variable {v : Option QString}

lemma marks (h : Value s v r) : marks s = HtmlReprint.marks (valueText v) ++
    HtmlReprint.marks r := by
  cases h with
  | none => exact (marks_skipWhiteSpace s).symm
  | @word u w _ hs hw hu =>
    obtain ⟨c, w, rfl, -⟩ := hw.head
    rw [← marks_skipWhiteSpace s, hs]
    have htail : HtmlReprint.marks u = HtmlReprint.marks (c :: w) ++ HtmlReprint.marks r := by
      rw [← marks_skipWhiteSpace u, hu, marks_append]
    exact htail
  | @missing u hs hu =>
    rw [← marks_skipWhiteSpace s, hs]
    exact (marks_skipWhiteSpace u).symm

lemma strip (h : Value s v r) :
    strip s = HtmlReprint.strip (valueText v) ++ HtmlReprint.strip r ∨
      HtmlReprint.strip s = '=' :: HtmlReprint.strip r ∧ valueText v = [] ∧
        skipWhiteSpace r = r ∧ (parseWord r).1 = [] := by
  cases h with
  | none => exact .inl (strip_skipWhiteSpace s).symm
  | @word u w _ hs hw hu =>
    obtain ⟨c, w, rfl, -⟩ := hw.head
    rw [← strip_skipWhiteSpace s, hs]
    have htail : HtmlReprint.strip u = HtmlReprint.strip (c :: w) ++ HtmlReprint.strip r := by
      rw [← strip_skipWhiteSpace u, hu, strip_append]
    exact .inl (congrArg ('=' :: ·) htail)
  | @missing u hs hu =>
    rw [← strip_skipWhiteSpace s, hs]
    exact .inr ⟨congrArg ('=' :: ·) (strip_skipWhiteSpace u).symm, rfl,
      skipWhiteSpace_skipWhiteSpace u, hu⟩

lemma last {k : QString} (h : Value s v r) (hk : IsWord k) :
    ∃ c, (k ++ valueText v).getLast? = some c ∧ isSpace c = false ∧ c ≠ '/' := by
  cases h with
  | none =>
    rw [show valueText Option.none = [] from rfl, List.append_nil]
    exact hk.last
  | @word u w _ hs hw hu =>
    obtain ⟨c, hc, hlast⟩ := hw.last
    obtain ⟨d, w, rfl, -⟩ := hw.head
    refine ⟨c, ?_, hlast⟩
    have htext : valueText (some (d :: w)) = '=' :: d :: w := rfl
    rw [htext, List.getLast?_append, List.getLast?_cons_cons, hc]
    rfl
  | missing =>
    rw [show valueText (some []) = [] from rfl, List.append_nil]
    exact hk.last

lemma reread {X : QString} (h : Value s v r) (hX : ∀ c ∈ X.head?, isWordChar c = false)
    {as : List Attribute} {t : QString} (hreads : Reads X as t) (ht : t.head? ≠ some '=')
    (hn : as ≠ [] → newline X = newline r) :
    (parseValue (valueText v ++ X)).1 = v.filter (fun w => !w.isEmpty) ∧
      Reads (parseValue (valueText v ++ X)).2 as t := by
  have hempty (hr : skipWhiteSpace r = r) : (parseValue X).1 = Option.none ∧
      Reads (parseValue X).2 as t := by
    have hskip := reads_skipWhiteSpace hreads fun hne => by
      rw [hn hne, ← hr, newline_skipWhiteSpace]
    rw [parseValue, if_neg (reads_head hreads ht)]
    exact ⟨rfl, hskip⟩
  cases h with
  | none => exact hempty (skipWhiteSpace_skipWhiteSpace s)
  | @word u w _ hs hw hu =>
    obtain ⟨c, l, rfl, hc, -⟩ := hw.head
    have htext : valueText (some (c :: l)) ++ X = '=' :: (c :: l ++ X) := rfl
    have hequals : skipWhiteSpace ('=' :: (c :: l ++ X)) = '=' :: (c :: l ++ X) :=
      List.dropWhile_cons_of_neg (by decide)
    have hword : skipWhiteSpace (c :: l ++ X) = c :: l ++ X :=
      List.dropWhile_cons_of_neg (by simp [hc])
    rw [htext, parseValue, hequals]
    simp only [List.head?_cons, if_true, List.drop_one, List.tail_cons, hword, hw.parseWord hX]
    exact ⟨rfl, hreads⟩
  | @missing u hs hu => exact hempty (skipWhiteSpace_skipWhiteSpace u)

end Value

lemma printed_next {string k T' s₂ rest : QString} {v : Option QString} (hstring : Joins string)
    (hk : IsWord k) (hword : parseWord (skipWhiteSpace s) = (k, s₂)) (hv : Value s₂ v rest)
    (h : Reads rest as r) (hr : r.head? ≠ some '=')
    (ih : Printed (string ++ (lead string s ++ k ++ valueText v)) rest as r T') :
    Printed string s (newline s ++ (k, v) :: as) r (lead string s ++ k ++ valueText v ++ T') := by
  obtain ⟨hstrip, hmarks⟩ := strip_word (s := s) rfl
  rw [hword] at hstrip hmarks
  have hlead : strip (lead string s) = [] ∧ HtmlReprint.marks (lead string s) = [] := by
    have hall : ∀ c ∈ lead string s, isSpace c := fun c hc =>
      front_lead_space string s c (List.mem_append_right _ hc)
    exact ⟨strip_of_space hall, marks_of_space hall⟩
  obtain ⟨c, u, hkc, hcspace, -⟩ := hk.head
  constructor
  · rw [foldl_group hstring hk, ih.text]
    simp only [List.append_assoc]
  · simp
  · intro hne d hd
    have hlead' : ∃ e l, lead string s = e :: l := by
      rw [lead]
      rcases newline_cases s with h | h | h <;> rw [h] <;> simp [hne, lit]
    obtain ⟨e, l, hel⟩ := hlead'
    have hspace := front_lead_space string s e (by rw [hel]; simp)
    rw [hel] at hd
    obtain rfl : e = d := Option.some.inj hd
    exact not_isWordChar_of_isSpace hspace
  · intro _
    by_cases has : as = []
    · obtain ⟨d, hd, hlast⟩ := hv.last hk
      refine ⟨d, ?_, hlast⟩
      rw [ih.nil has, List.append_nil, List.append_assoc, List.getLast?_append, hd]
      rfl
    · obtain ⟨d, hd, hlast⟩ := ih.last has
      refine ⟨d, ?_, hlast⟩
      rw [List.getLast?_append, hd]
      rfl
  · rw [hmarks, hv.marks, ih.marks]
    simp [hlead.2]
  · rw [hstrip]
    rcases hv.strip with hval | ⟨hval, htext, hskip, hnone⟩
    · rw [hval]
      rcases ih.strip with h | h
      · left
        rw [h]
        simp [hlead.1]
      · right
        rw [h]
        simp [hlead.1]
    · -- behind an equals sign without a value there are no attributes
      right
      cases h with
      | stop =>
        rw [hval, ih.nil rfl, htext, hskip]
        simp [hlead.1]
      | equals h => exact absurd h hr
      | next hkey => rw [hskip] at hkey; exact absurd hnone hkey
  · intro _ tail
    have heq : front string ++ (lead string s ++ k ++ valueText v ++ T' ++ tail) =
        front string ++ lead string s ++ (k ++ (valueText v ++ (T' ++ tail))) := by
      simp only [List.append_assoc]
    rw [heq, newline_lead]
    rw [hkc]
    rintro _ ⟨⟩
    exact hcspace
  · intro tail htail
    have hne : string ++ (lead string s ++ k ++ valueText v) ≠ [] := by simp [hkc]
    have hfront : front (string ++ (lead string s ++ k ++ valueText v)) = [] := by
      rw [front, List.isEmpty_eq_false_iff.mpr hne, if_neg (by decide)]
    have hbehind := ih.reads tail htail
    have hnl := fun has => ih.newline has tail
    rw [hfront, List.nil_append] at hbehind hnl
    have hstop : (skipWhiteSpace tail).head? ≠ some '=' := by rcases htail with h | h <;> simp [h]
    have hhead : ∀ d ∈ (T' ++ tail).head?, isWordChar d = false := by
      intro d hd
      rcases T' with _ | ⟨e, l⟩
      · exact htail.head d hd
      · exact ih.head hne d hd
    obtain ⟨hval, hrest⟩ := hv.reread hhead hbehind hstop fun has => hnl (by simpa using has)
    -- the key is read as before, and what is behind it as its value
    have hskip : skipWhiteSpace (front string ++ lead string s ++
        (k ++ (valueText v ++ (T' ++ tail)))) = k ++ (valueText v ++ (T' ++ tail)) :=
      dropWhile_run (front_lead_space string s) (by rw [hkc]; rintro _ ⟨⟩; exact hcspace)
    have hread : parseWord (k ++ (valueText v ++ (T' ++ tail))) =
        (k, valueText v ++ (T' ++ tail)) := by
      refine hk.parseWord ?_
      rw [valueText]
      split_ifs
      · exact hhead
      · rintro _ ⟨⟩
        decide
    have hnext := Reads.next (s := front string ++ lead string s ++
      (k ++ (valueText v ++ (T' ++ tail)))) (by rw [hskip, hread]; simp [hkc])
      (by rw [hskip, hread]; exact hrest)
    rw [newline_lead _ _ (by rw [hkc]; rintro _ ⟨⟩; exact hcspace), hskip, hread, hval] at hnext
    have hmap : (newline s).map bare = newline s := by
      rcases newline_cases s with h | h | h <;> rw [h] <;> rfl
    rw [List.map_append, hmap, List.map_cons, bare]
    simpa only [List.append_assoc] using hnext

/-- **The attributes of a tag** as they are printed, and read from that. -/
theorem Printed.of_reads (h : Reads s as r) (hr : r.head? ≠ some '=') :
    ∀ string, Joins string → ∃ T, Printed string s as r T := by
  induction h with
  | stop => exact fun string _ => ⟨[], printed_stop string _⟩
  | equals h => exact absurd h hr
  | @next s as r hkey h ih =>
    intro string hstring
    have hv := value_parseValue (parseWord (skipWhiteSpace s)).2
    have hk := isWord_parseWord hkey
    obtain ⟨T, hT⟩ := ih hr (string ++ (lead string s ++ (parseWord (skipWhiteSpace s)).1 ++
      valueText (parseValue (parseWord (skipWhiteSpace s)).2).1)) (by
        obtain ⟨c, hc, hspace, -⟩ := hv.last hk
        intro d hd
        rw [List.append_assoc, List.getLast?_append, List.getLast?_append, hc] at hd
        obtain rfl : c = d := Option.some.inj hd
        exact hspace)
    exact ⟨_, printed_next hstring hk rfl hv h hr hT⟩

/-! ### A start tag -/

variable {tag tag' : StartTag} {out : QString}

/-- The parser reads the tag behind its `<`, up to its end. -/
structure StartRead (s : QString) (tag : StartTag) (r : QString) : Prop where
  start : isStartTag s
  name : tag.name = s.takeWhile isAlnum
  reads : Reads (afterName s) tag.attributes r
  finished : Finished ('<' :: s) r tag
  complete : tag.complete

/-- The attributes of a tag as they are printed. -/
def attributesText (tag : StartTag) : QString :=
  if tag.attributes.isEmpty then [] else ' ' :: tag.attributes.foldl appendAttribute []

/-- The tag as it is printed. -/
def tagText (tag : StartTag) : QString :=
  '<' :: (tag.name ++ (attributesText tag ++ (tag.selfCloseMark.getD [] ++ ['>'])))

lemma charBefore_eq (pre : QString) (hw : w ≠ []) (r : QString) :
    charBefore (pre ++ (w ++ r)) r = w.getLast? := by
  have hlen : (pre ++ (w ++ r)).length - r.length = (pre ++ w).length := by
    simp only [List.length_append]
    omega
  rw [charBefore, hlen, ← List.append_assoc, List.take_left, List.getLast?_append]
  cases h : w.getLast? with
  | none => exact absurd (List.getLast?_eq_none_iff.mp h) hw
  | some c => rfl

lemma finished_of_append {pre : QString} (hr : r <:+ s) (h : Finished (pre ++ '<' :: s) r tag) :
    Finished ('<' :: s) r tag := by
  obtain ⟨w, rfl⟩ := hr
  have hchar : charBefore (pre ++ '<' :: (w ++ r)) r = charBefore ('<' :: (w ++ r)) r := by
    have h₁ := charBefore_eq pre (List.cons_ne_nil '<' w) r
    have h₂ := charBefore_eq [] (List.cons_ne_nil '<' w) r
    exact h₁.trans h₂.symm
  cases h with
  | greater => exact .greater
  | slash =>
    rw [hchar]
    exact .slash
  | equals => exact .equals

namespace StartRead

lemma name_ne (h : StartRead s tag r) : tag.name ≠ [] := h.name ▸ (startTag_name h.start).2.1

lemma name_alnum (h : StartRead s tag r) : ∀ c ∈ tag.name, isAlnum c := fun _ hc =>
  mem_takeWhile (h.name ▸ hc)

lemma stop_ne (h : StartRead s tag r) : r.head? ≠ some '=' := by
  have hcomplete := h.complete
  rintro heq
  cases h.finished with
  | greater => simp at heq
  | slash => simp at heq
  | equals => simp at hcomplete

lemma printed (h : StartRead s tag r) : ∃ T, Printed [] (afterName s) tag.attributes r T ∧
    attributesText tag = if tag.attributes.isEmpty then [] else ' ' :: T := by
  obtain ⟨T, hT⟩ := Printed.of_reads h.reads h.stop_ne [] (by simp [Joins])
  have htext := hT.text
  rw [List.nil_append] at htext
  exact ⟨T, hT, by rw [attributesText, htext]⟩

lemma reads_text (h : StartRead s tag r) {tail : QString} (htail : Stops tail) :
    Reads (attributesText tag ++ tail) (tag.attributes.map bare) (skipWhiteSpace tail) := by
  obtain ⟨T, hT, htext⟩ := h.printed
  rw [htext]
  split_ifs with hnil
  · rw [List.isEmpty_iff.mp hnil]
    exact .stop htail
  · exact hT.reads tail htail

lemma marks_text (h : StartRead s tag r) :
    marks (attributesText tag) ++ marks r = marks (afterName s) := by
  obtain ⟨T, hT, htext⟩ := h.printed
  rw [htext, hT.marks]
  split_ifs with hnil
  · rw [hT.nil (List.isEmpty_iff.mp hnil)]
  · rfl

lemma strip_text (h : StartRead s tag r) :
    strip (afterName s) = strip (attributesText tag) ++ strip r ∨
      strip (afterName s) = strip (attributesText tag) ++ '=' :: strip r := by
  obtain ⟨T, hT, htext⟩ := h.printed
  have hstrip : strip (attributesText tag) = strip T := by
    rw [htext]
    split_ifs with hnil
    · rw [hT.nil (List.isEmpty_iff.mp hnil)]
    · rfl
  rw [hstrip]
  exact hT.strip

lemma last_text (h : StartRead s tag r) : ∃ c, (tag.name ++ attributesText tag).getLast? = some c ∧
    isSpace c = false ∧ c ≠ '/' := by
  obtain ⟨T, hT, htext⟩ := h.printed
  rw [htext]
  split_ifs with hnil
  · have hal := h.name_alnum _ (List.getLast_mem h.name_ne)
    rw [List.append_nil]
    exact ⟨_, List.getLast?_eq_some_getLast h.name_ne, not_isSpace_of_isAlnum hal,
      isAlnum_ne hal (by decide)⟩
  · obtain ⟨c, hc, hlast⟩ := hT.last (by simpa using hnil)
    refine ⟨c, ?_, hlast⟩
    rw [← List.singleton_append, ← List.append_assoc, List.getLast?_append, hc]
    rfl

end StartRead

/-- The white space or slash before a mark. -/
def markLead (o : Option Char) : QString := (o.filter fun c => isSpace c || c = '/').toList

lemma markLead_cases (o : Option Char) :
    markLead o = [] ∨ ∃ c, (isSpace c ∨ c = '/') ∧ markLead o = [c] := by
  rcases o with _ | c
  · exact .inl rfl
  · rw [markLead, Option.filter_some]
    split_ifs with hc
    · exact .inr ⟨c, by simpa using hc, rfl⟩
    · exact .inl rfl

lemma finished_slash (name : QString) (as : List Attribute) {pre v : QString} (hpre : pre ≠ [])
    (hv : '>' ∉ v) (out : QString) : Finished (pre ++ '/' :: (v ++ '>' :: out))
      ('/' :: (v ++ '>' :: out))
      ⟨name, as, some (markLead pre.getLast? ++ '/' :: v), true, out⟩ := by
  have hv' : ∀ d ∈ v, decide (d ≠ '>') = true := fun d hd => decide_eq_true fun h => hv (h ▸ hd)
  have hchar := charBefore_eq [] hpre ('/' :: (v ++ '>' :: out))
  have h := @Finished.slash (pre ++ '/' :: (v ++ '>' :: out)) name (v ++ '>' :: out) as
  rw [List.nil_append] at hchar
  rw [hchar, List.takeWhile_cons_of_pos (by decide), takeWhile_run hv' (by simp),
    dropWhile_run hv' (by simp)] at h
  exact h

lemma finished_again (name : QString) (as : List Attribute) {txt pre : QString} {c : Char}
    (h : Finished txt r tag) (hc : tag.complete) (hpre : pre.getLast? = some c)
    (hspace : isSpace c = false) (hslash : c ≠ '/') (out : QString) :
    Stops (tag.selfCloseMark.getD [] ++ '>' :: out) ∧
      Finished (pre ++ (tag.selfCloseMark.getD [] ++ '>' :: out))
        (skipWhiteSpace (tag.selfCloseMark.getD [] ++ '>' :: out))
        ⟨name, as, tag.selfCloseMark, true, out⟩ := by
  have hpre' : pre ≠ [] := by
    rintro rfl
    simp at hpre
  have hlead : markLead pre.getLast? = [] := by
    rw [hpre]
    simp [markLead, Option.filter_some, hspace, hslash]
  cases h with
  | greater => exact ⟨.inl rfl, .greater⟩
  | @slash name' r as' =>
    have hv : '>' ∉ r.takeWhile (· ≠ '>') := fun hmem => absurd (mem_takeWhile hmem) (by decide)
    rw [Option.getD_some, List.takeWhile_cons_of_pos (by decide)]
    generalize r.takeWhile (· ≠ '>') = v at hv
    rcases markLead_cases (charBefore txt ('/' :: r)) with h | ⟨d, hd | rfl, h⟩ <;>
      rw [← markLead, h]
    · have hfin := finished_slash name as hpre' hv out
      rw [hlead] at hfin
      exact ⟨.inr rfl, hfin⟩
    · -- the white space before the slash belongs to the mark
      have hskip : skipWhiteSpace ([d] ++ '/' :: v ++ '>' :: out) = '/' :: (v ++ '>' :: out) := by
        rw [List.append_assoc]
        exact dropWhile_run (by simpa using hd) (by simp [isSpace])
      have hpre'' : pre ++ [d] ≠ [] := by simp
      have hfin := finished_slash name as hpre'' hv out
      have hlast : markLead (pre ++ [d]).getLast? = [d] := by
        simp [markLead, Option.filter_some, hd]
      rw [hlast] at hfin
      rw [Stops, hskip]
      refine ⟨.inr rfl, ?_⟩
      simpa using hfin
    · have hv' : '>' ∉ '/' :: v := by simpa using hv
      have hfin := finished_slash name as hpre' hv' out
      rw [hlead] at hfin
      exact ⟨.inr rfl, hfin⟩
  | equals => exact Bool.noConfusion hc

lemma marks_tail {txt : QString} (h : Finished txt r tag) (hc : tag.complete) (hmem : '>' ∈ r)
    (hout : marks out = marks tag.rest) :
    marks (tag.selfCloseMark.getD [] ++ '>' :: out) = marks r := by
  have hgt (u : QString) : marks ('>' :: u) = '>' :: marks u := rfl
  cases h with
  | greater => exact congrArg ('>' :: ·) hout
  | @slash name r as =>
    obtain ⟨u, hu⟩ := dropWhile_of_mem (show '>' ∈ r by simpa using hmem)
    have hrest : marks out = marks u := by
      rw [hu] at hout
      exact hout
    have hlead : marks (markLead (charBefore txt ('/' :: r))) = [] := by
      refine marks_of_plain fun c hc => ?_
      rcases markLead_cases (charBefore txt ('/' :: r)) with h | ⟨d, hd, h⟩
      · rw [h] at hc
        exact absurd hc List.not_mem_nil
      · rw [h] at hc
        obtain rfl := List.mem_singleton.mp hc
        rcases hd with hd | rfl
        · exact isPlain_of_isSpace hd
        · decide
    rw [Option.getD_some, ← markLead, marks_append, marks_append, hlead, hgt, hrest, ← hgt,
      ← hu, List.nil_append, ← marks_append, List.takeWhile_cons_of_pos (by decide),
      List.cons_append, List.takeWhile_append_dropWhile]
  | equals => exact Bool.noConfusion hc

lemma StartRead.mark_alone {u : QString} (h : StartRead s tag ('/' :: u))
    (hnil : tag.attributes = []) :
    (∃ d, isSpace d ∧ markLead (charBefore ('<' :: s) ('/' :: u)) = [d]) ∨
      markLead (charBefore ('<' :: s) ('/' :: u)) = [] ∧ afterName s = '/' :: u := by
  have hskip : skipWhiteSpace (afterName s) = '/' :: u := by
    have hreads := h.reads
    generalize '/' :: u = r at hreads
    generalize tag.attributes = as at hnil hreads
    cases hreads with
    | stop => rfl
    | equals => rfl
    | next => simp at hnil
  have hsplit : '<' :: s = '<' :: tag.name ++ ((afterName s).takeWhile isSpace ++ '/' :: u) := by
    rw [← hskip, spaces_skipWhiteSpace, h.name, afterName, List.cons_append,
      List.takeWhile_append_dropWhile]
  rw [hsplit]
  by_cases hsp : (afterName s).takeWhile isSpace = []
  · right
    have hafter := spaces_skipWhiteSpace (afterName s)
    rw [hsp, List.nil_append, hskip] at hafter
    have hal := h.name_alnum _ (List.getLast_mem h.name_ne)
    refine ⟨?_, hafter.symm⟩
    rw [hsp, List.nil_append]
    have hchar := charBefore_eq ['<'] h.name_ne ('/' :: u)
    rw [List.singleton_append] at hchar
    rw [List.cons_append, hchar, List.getLast?_eq_some_getLast h.name_ne, markLead,
      Option.filter_some, not_isSpace_of_isAlnum hal]
    simp [isAlnum_ne hal (show isAlnum '/' = false by decide)]
  · left
    have hspace := mem_takeWhile (List.getLast_mem hsp)
    refine ⟨_, hspace, ?_⟩
    rw [charBefore_eq _ hsp, List.getLast?_eq_some_getLast hsp, markLead, Option.filter_some,
      hspace]
    rfl

lemma tagTail_slash {v : QString} (hv : '>' ∉ v) {u : QString} (h : tagTail ('/' :: (v ++ u)))
    (out : QString) : tagTail ('/' :: (v ++ '>' :: out)) := by
  have hspaces : ∀ c ∈ v, isSpace c := by
    have hend : ((v ++ u).dropWhile isSpace).head? = some '>' := by
      simpa [tagTail] using h
    intro c hc
    by_contra hspace
    obtain ⟨d, l, hd⟩ := List.exists_cons_of_ne_nil (l := v.dropWhile isSpace)
      fun hnil => hspace (List.dropWhile_eq_nil_iff.mp hnil c hc)
    have hmem : d ∈ v := List.dropWhile_subset isSpace (hd ▸ List.mem_cons_self)
    rw [List.dropWhile_append, hd] at hend
    obtain rfl : d = '>' := by simpa using hend
    exact hv hmem
  have hrun : (v ++ '>' :: out).dropWhile isSpace = '>' :: out :=
    dropWhile_run hspaces (by simp [isSpace])
  simp [tagTail, hrun]

lemma StartRead.tail_alone (h : StartRead s tag r) (hnil : tag.attributes = []) (out : QString) :
    (tag.selfCloseMark.getD [] ++ '>' :: out).head?.any isSpace ∨
      tagTail (tag.selfCloseMark.getD [] ++ '>' :: out) := by
  obtain ⟨name, as, mark, complete, rest⟩ := tag
  have hfin := h.finished
  cases hfin with
  | greater => exact .inr rfl
  | @slash _ u =>
    have hv : '>' ∉ u.takeWhile (· ≠ '>') := fun hmem => absurd (mem_takeWhile hmem) (by decide)
    rw [Option.getD_some, ← markLead, List.takeWhile_cons_of_pos (by decide)]
    rcases h.mark_alone hnil with ⟨d, hd, hlead⟩ | ⟨hlead, hafter⟩
    · left
      rw [hlead]
      simpa using hd
    · right
      have hstart := h.start
      rw [isStartTag, hafter, Bool.and_eq_true, Bool.or_eq_true, Bool.and_eq_true] at hstart
      have htail : tagTail ('/' :: u) := by
        rcases hstart.2 with ⟨hspace, -⟩ | htail
        · exact absurd hspace (by simp [isSpace])
        · exact htail
      rw [hlead, List.nil_append, List.cons_append]
      rw [← List.takeWhile_append_dropWhile (p := (· ≠ '>')) (l := u)] at htail
      exact tagTail_slash hv htail out
  | equals => exact Bool.noConfusion h.complete

lemma isStartTag_again (h : StartRead s tag r) (hout : marks out = marks tag.rest) :
    isStartTag (tag.name ++ (attributesText tag ++ (tag.selfCloseMark.getD [] ++ '>' :: out))) ∧
      afterName (tag.name ++ (attributesText tag ++ (tag.selfCloseMark.getD [] ++ '>' :: out))) =
        attributesText tag ++ (tag.selfCloseMark.getD [] ++ '>' :: out) ∧
      (tag.name ++ (attributesText tag ++ (tag.selfCloseMark.getD [] ++ '>' :: out))).takeWhile
        isAlnum = tag.name := by
  obtain ⟨-, -, hbody, -⟩ := startTag_name h.start
  obtain ⟨c, hc, hspace, hslash⟩ := h.last_text
  obtain ⟨hstops, -⟩ := finished_again [] [] h.finished h.complete hc hspace hslash out
  have hmem : '>' ∈ r := mem_of_tagBody (by rwa [h.reads.passes tagBody_passes])
  have hmarks := marks_tail h.finished h.complete hmem hout
  set tail := tag.selfCloseMark.getD [] ++ '>' :: out with htail
  -- the marks of the tag are those that were read, so it ends at the same `>`
  have hbody' : tagBody none (attributesText tag ++ tail) := by
    rw [tagBody_marks (by simp), marks_append, hmarks, h.marks_text, ← tagBody_marks (by simp)]
    exact hbody
  have hhead : ∀ c ∈ (attributesText tag ++ tail).head?, isAlnum c = false := by
    intro c hc
    by_contra hal
    have hword := isWordChar_of_isAlnum (Bool.of_not_eq_false hal)
    rw [attributesText] at hc
    split_ifs at hc
    · rw [hstops.head c hc] at hword
      exact absurd hword (by decide)
    · obtain rfl := Option.some.inj hc
      exact absurd hword (by decide)
  have hafter : afterName (tag.name ++ (attributesText tag ++ tail)) = attributesText tag ++ tail :=
    dropWhile_run h.name_alnum hhead
  have hname : (tag.name ++ (attributesText tag ++ tail)).head?.any isAlnum := by
    obtain ⟨c, u, hcu⟩ := List.exists_cons_of_ne_nil h.name_ne
    have hc := h.name_alnum c (by rw [hcu]; exact List.mem_cons_self)
    rw [hcu]
    exact hc
  refine ⟨?_, hafter, takeWhile_run h.name_alnum hhead⟩
  rw [isStartTag, hafter, hname, Bool.true_and, Bool.or_eq_true, Bool.and_eq_true]
  by_cases hnil : tag.attributes = []
  · have htext : attributesText tag = [] := by rw [attributesText, hnil]; rfl
    rw [htext, List.nil_append] at hbody' ⊢
    exact (h.tail_alone hnil out).imp_left fun hspace => ⟨hspace, hbody'⟩
  · left
    refine ⟨?_, hbody'⟩
    rw [attributesText, if_neg (by simpa using hnil)]
    rfl

/-- **A start tag is read again** from what is printed of it, in front of any text with the same
marks as the one behind it. -/
theorem StartRead.again (h : StartRead s tag r) (hout : marks out = marks tag.rest) :
    ∃ X r' tag', tagText tag ++ out = '<' :: X ∧ StartRead X tag' r' ∧ tag'.rest = out ∧
      tag'.name = tag.name ∧ tag'.attributes = tag.attributes.map bare ∧
        tag'.selfCloseMark = tag.selfCloseMark := by
  obtain ⟨hstart, hafter, hname⟩ := isStartTag_again h hout
  obtain ⟨c, hc, hspace, hslash⟩ := h.last_text
  have hlast : ('<' :: (tag.name ++ attributesText tag)).getLast? = some c := by
    rw [← List.singleton_append, List.getLast?_append, hc]
    rfl
  obtain ⟨hstops, hfin⟩ := finished_again tag.name (tag.attributes.map bare) h.finished h.complete
    hlast hspace hslash out
  have htext : tagText tag ++ out = '<' :: (tag.name ++ (attributesText tag ++
      (tag.selfCloseMark.getD [] ++ '>' :: out))) := by
    simp [tagText]
  refine ⟨_, skipWhiteSpace (tag.selfCloseMark.getD [] ++ '>' :: out),
    ⟨tag.name, tag.attributes.map bare, tag.selfCloseMark, true, out⟩, htext,
    ⟨hstart, hname.symm, ?_, ?_, rfl⟩, rfl, rfl, rfl, rfl⟩
  · rw [hafter]
    exact h.reads_text hstops
  · rw [List.cons_append, List.append_assoc] at hfin
    exact hfin

end TreeFrog.HtmlReprint
