import TreeFrog.HtmlParser
import TreeFrog.HtmlReprint

/-!
What `THtmlParser` makes of a text as a text: each tag is replaced by what is printed of it. An end
tag is printed with the name of the element that it closes, so the names of the open elements are
carried along.

A text that has been printed is printed again as it is, for nothing that decides where tags are
has changed.
-/

namespace TreeFrog.HtmlText

open ErbParser Regular HtmlElement HtmlScan HtmlTag HtmlParser HtmlReprint

variable {names : List QString} {s t r w out name : QString} {tag : StartTag}

/-! ### The printed text -/

/-- The open element that an end tag closes, by its name, and the open ones around it. -/
def closing (tag : QString) : List QString → Option (QString × List QString)
  | [] => none
  | n :: ns => if toLower n = toLower tag then some (n, ns) else closing tag ns

/-- `out` is printed for the text, inside open elements with these names, innermost first. -/
inductive Reprints : List QString → QString → QString → Prop where
  | nil {names : List QString} : Reprints names [] []
  | char {names : List QString} {c : Char} {r out : QString} (hc : isTag (c :: r) = false)
      (h : Reprints names r out) : Reprints names (c :: r) (c :: out)
  | start {names : List QString} {s r out : QString} {tag : StartTag} (hs : StartRead s tag r)
      (h : Reprints (if isClosedTag tag then names else tag.name :: names) tag.rest out) :
      Reprints names ('<' :: s) (tagText tag ++ out)
  | close {names rest : List QString} {s name out : QString} (hs : isEndTag s)
      (hclose : closing (readEndTag s).1 names = some (name, rest))
      (h : Reprints rest (readEndTag s).2 out) :
      Reprints names ('<' :: s) (lit "</" ++ (name ++ (lit ">" ++ out)))
  | stray {names : List QString} {s out : QString} (hs : isEndTag s)
      (hclose : closing (readEndTag s).1 names = none) (h : Reprints names (readEndTag s).2 out) :
      Reprints names ('<' :: s) (lit "</" ++ ((readEndTag s).1 ++ (lit ">" ++ out)))

/-- The name of a tag. -/
def IsName (name : QString) : Prop := name ≠ [] ∧ ∀ c ∈ name, isAlnum c

/-! ### End tags -/

lemma tagTail_split (h : tagTail s) : ∃ junk rest,
    (∀ c ∈ junk, isPlain c) ∧ s = junk ++ '>' :: rest := by
  have hspaces {u : QString} (hu : (u.dropWhile isSpace).head? = some '>') :
      ∃ rest, u = u.takeWhile isSpace ++ '>' :: rest := by
    obtain ⟨rest, hrest⟩ := List.head?_eq_some_iff.mp hu
    refine ⟨rest, ?_⟩
    conv_lhs => rw [← List.takeWhile_append_dropWhile (p := isSpace) (l := u), hrest]
  have hplain (u : QString) : ∀ c ∈ u.takeWhile isSpace, isPlain c := fun c hc =>
    isPlain_of_isSpace (mem_takeWhile hc)
  rw [tagTail, decide_eq_true_eq] at h
  split_ifs at h with hslash
  · obtain ⟨u, rfl⟩ := List.head?_eq_some_iff.mp hslash
    obtain ⟨rest, hrest⟩ := hspaces h
    refine ⟨'/' :: u.takeWhile isSpace, rest, ?_, congrArg ('/' :: ·) hrest⟩
    exact List.forall_mem_cons.mpr ⟨by decide, hplain u⟩
  · obtain ⟨rest, hrest⟩ := hspaces h
    exact ⟨s.takeWhile isSpace, rest, hplain s, hrest⟩

lemma dropWhile_gt {junk : QString} (h : '>' ∉ junk) (r : QString) :
    (junk ++ '>' :: r).dropWhile (· ≠ '>') = '>' :: r :=
  dropWhile_run (fun c hc => decide_eq_true fun heq => h (heq ▸ hc)) (by simp)

lemma gt_of_plain {junk : QString} (h : ∀ c ∈ junk, isPlain c) : '>' ∉ junk := fun hmem =>
  absurd (h '>' hmem) (by decide)

lemma IsName.head (h : IsName name) : ∃ c u, name = c :: u ∧ isAlnum c := by
  obtain ⟨c, u, rfl⟩ := List.exists_cons_of_ne_nil h.1
  exact ⟨c, u, rfl, h.2 c List.mem_cons_self⟩

lemma IsName.plain (h : IsName name) : ∀ c ∈ name, isPlain c := fun c hc =>
  isPlain_of_isWordChar (isWordChar_of_isAlnum (h.2 c hc))

lemma readEndTag_eq {u : QString} (h : IsName name) (hu : ∀ c ∈ u.head?, isWordChar c = false) :
    readEndTag ('/' :: (name ++ u)) = (name, (u.dropWhile (· ≠ '>')).drop 1) := by
  obtain ⟨c, v, rfl, hc⟩ := h.head
  have hskip : skipWhiteSpace (c :: v ++ u) = c :: v ++ u :=
    List.dropWhile_cons_of_neg (by simp [not_isSpace_of_isAlnum hc])
  have hword : IsWord (c :: v) :=
    .plain (List.cons_ne_nil c v) fun d hd => isWordChar_of_isAlnum (h.2 d hd)
  simp only [readEndTag, List.drop_one, List.tail_cons, hskip, hword.parseWord hu]

lemma endTag_split (h : isEndTag s) : IsName (readEndTag s).1 ∧ ∃ junk,
    (∀ c ∈ junk, isPlain c) ∧ (∀ c ∈ junk.head?, isAlnum c = false) ∧
      s = '/' :: ((readEndTag s).1 ++ (junk ++ '>' :: (readEndTag s).2)) := by
  rw [isEndTag, Bool.and_eq_true, Bool.and_eq_true, decide_eq_true_eq] at h
  obtain ⟨⟨hslash, hname⟩, htail⟩ := h
  obtain ⟨u, rfl⟩ := List.head?_eq_some_iff.mp hslash
  rw [List.drop_one, List.tail_cons] at hname htail
  obtain ⟨c, v, rfl, hc⟩ := any_head_iff.mp hname
  obtain ⟨-, hhead⟩ := tagBody_of_tail htail
  obtain ⟨junk, rest, hjunk, hrest⟩ := tagTail_split htail
  have hisName : IsName ((c :: v).takeWhile isAlnum) :=
    ⟨by simp [List.takeWhile_cons_of_pos hc], fun d hd => mem_takeWhile hd⟩
  have hsplit : c :: v = (c :: v).takeWhile isAlnum ++ (junk ++ '>' :: rest) := by
    rw [← hrest, afterName, List.takeWhile_append_dropWhile]
  have hread : readEndTag ('/' :: c :: v) = ((c :: v).takeWhile isAlnum, rest) := by
    conv_lhs => rw [hsplit]
    rw [readEndTag_eq hisName (hrest ▸ hhead), dropWhile_gt (gt_of_plain hjunk)]
    rfl
  rw [hread]
  refine ⟨hisName, junk, hjunk, ?_, congrArg ('/' :: ·) hsplit⟩
  intro d hd
  obtain ⟨w, rfl⟩ := List.head?_eq_some_iff.mp hd
  have hnot := head_dropWhile isAlnum (c :: v) d
  rw [← afterName, hrest] at hnot
  exact hnot rfl

lemma endTag_again (h : IsName name) (out : QString) :
    isEndTag ('/' :: (name ++ '>' :: out)) ∧
      readEndTag ('/' :: (name ++ '>' :: out)) = (name, out) := by
  constructor
  · obtain ⟨c, u, hcu, hc⟩ := h.head
    have hafter : afterName (name ++ '>' :: out) = '>' :: out :=
      dropWhile_run h.2 (by rintro _ ⟨⟩; decide)
    rw [isEndTag, List.drop_one, List.tail_cons, hafter, hcu]
    simp [hc, tagTail, isSpace]
  · rw [readEndTag_eq h (by rintro _ ⟨⟩; decide)]
    rfl

/-! ### The names of the open elements -/

lemma closing_some {tag : QString} {rest : List QString}
    (h : closing tag names = some (name, rest)) :
    name ∈ names ∧ toLower name = toLower tag ∧ rest ⊆ names := by
  induction names with
  | nil => exact absurd h (by simp [closing])
  | cons n ns ih =>
    rw [closing] at h
    split_ifs at h with heq
    · obtain ⟨rfl, rfl⟩ := Prod.mk.inj (Option.some.inj h)
      exact ⟨List.mem_cons_self, heq, List.subset_cons_self _ _⟩
    · obtain ⟨hmem, hlower, hsub⟩ := ih h
      exact ⟨List.mem_cons_of_mem _ hmem, hlower, fun x hx => List.mem_cons_of_mem _ (hsub hx)⟩

lemma closing_congr {tag tag' : QString} (h : toLower tag = toLower tag') (names : List QString) :
    closing tag names = closing tag' names := by
  induction names with
  | nil => rfl
  | cons n ns ih => rw [closing, closing, h, ih]

/-! ### Tags are where they were -/

/-- Two texts with the same marks that are equal up to the first `<`. -/
inductive Alike : QString → QString → Prop where
  | nil : Alike [] []
  | lt {r out : QString} (h : marks r = marks out) : Alike ('<' :: r) ('<' :: out)
  | cons {c : Char} {r out : QString} (hc : c ≠ '<') (h : Alike r out) : Alike (c :: r) (c :: out)

lemma marks_cons (c : Char) (s : QString) : marks (c :: s) = marks [c] ++ marks s :=
  marks_append [c] s

namespace Alike

lemma marks (h : Alike r out) : marks r = HtmlReprint.marks out := by
  induction h with
  | nil => rfl
  | lt h => rw [marks_cons, h, ← marks_cons]
  | cons _ _ ih => rw [marks_cons, ih, ← marks_cons]

lemma char (h : Alike r out) (c : Char) : Alike (c :: r) (c :: out) := by
  by_cases hc : c = '<'
  · exact hc ▸ .lt h.marks
  · exact .cons hc h

lemma head (h : Alike r out) : r.head? = out.head? := by cases h <;> rfl

lemma dropWhile {p : Char → Bool} (h : Alike r out) (hp : p '<' = false) :
    Alike (r.dropWhile p) (out.dropWhile p) := by
  induction h with
  | nil => exact .nil
  | lt h =>
    rw [List.dropWhile_cons_of_neg (by simp [hp]), List.dropWhile_cons_of_neg (by simp [hp])]
    exact .lt h
  | @cons c r out hc h ih =>
    by_cases hpc : p c
    · rwa [List.dropWhile_cons_of_pos hpc, List.dropWhile_cons_of_pos hpc]
    · rw [List.dropWhile_cons_of_neg hpc, List.dropWhile_cons_of_neg hpc]
      exact .cons hc h

lemma drop (h : Alike r out) (hlt : r.head? ≠ some '<') : Alike (r.drop 1) (out.drop 1) := by
  cases h with
  | nil => exact .nil
  | lt => exact absurd rfl hlt
  | cons _ h => exact h

lemma tagBody (h : Alike r out) : tagBody none r = tagBody none out := by
  rw [tagBody_marks (by simp), h.marks, ← tagBody_marks (by simp)]

lemma tagTail (h : Alike r out) : tagTail r = tagTail out := by
  rw [HtmlScan.tagTail, HtmlScan.tagTail, ← h.head]
  split_ifs with hslash
  · rw [((h.drop (by simp [hslash])).dropWhile (by decide)).head]
  · rw [(h.dropWhile (by decide)).head]

lemma isStartTag (h : Alike r out) : isStartTag r = isStartTag out := by
  have hafter : Alike (afterName r) (afterName out) := h.dropWhile (by decide)
  rw [HtmlScan.isStartTag, HtmlScan.isStartTag, h.head, hafter.head, hafter.tagBody, hafter.tagTail]

lemma isEndTag (h : Alike r out) : isEndTag r = isEndTag out := by
  rw [HtmlScan.isEndTag, HtmlScan.isEndTag, ← h.head]
  by_cases hslash : r.head? = some '/'
  · have hdrop := h.drop (by simp [hslash])
    have hafter : Alike (afterName (r.drop 1)) (afterName (out.drop 1)) :=
      hdrop.dropWhile (by decide)
    rw [hdrop.head, hafter.tagTail]
  · simp [hslash]

lemma isTag (h : Alike r out) (c : Char) : isTag (c :: r) = isTag (c :: out) := by
  rw [HtmlScan.isTag, HtmlScan.isTag, List.drop_one, List.drop_one, List.tail_cons, List.tail_cons,
    h.isStartTag, h.isEndTag]
  rfl

end Alike

/-! ### The printed text is printed again -/

lemma marks_startTag (h : StartRead s tag r) (hout : marks out = marks tag.rest) :
    marks ('<' :: s) = marks (tagText tag ++ out) := by
  obtain ⟨-, -, hbody, -⟩ := startTag_name h.start
  have hmem : '>' ∈ r := mem_of_tagBody (by rwa [h.reads.passes tagBody_passes])
  have hsplit : s = tag.name ++ afterName s := by
    rw [h.name, afterName, List.takeWhile_append_dropWhile]
  have htail := marks_tail h.finished h.complete hmem hout
  calc marks ('<' :: s)
      = '<' :: (marks tag.name ++ marks (afterName s)) := by
        conv_lhs => rw [hsplit, marks_cons, marks_append]
        rfl
    _ = '<' :: (marks tag.name ++ (marks (attributesText tag) ++
          marks (tag.selfCloseMark.getD [] ++ '>' :: out))) := by rw [← h.marks_text, htail]
    _ = marks (tagText tag ++ out) := by
        rw [tagText, List.cons_append, marks_cons]
        simp only [marks_append, List.append_assoc]
        rfl

lemma marks_endTag (h : IsName name) (hw : ∀ c ∈ w, isPlain c) (r : QString) :
    marks ('/' :: (name ++ (w ++ '>' :: r))) = '>' :: marks r := by
  rw [marks_cons, marks_append, marks_append, marks_of_plain h.plain, marks_of_plain hw]
  rfl

lemma Reprints.alike (h : Reprints names r out) (hnames : ∀ n ∈ names, IsName n) :
    Alike r out := by
  induction h with
  | nil => exact .nil
  | char _ _ ih => exact (ih hnames).char _
  | @start names s r out tag hs _ ih =>
    have hname : IsName tag.name := ⟨hs.name_ne, hs.name_alnum⟩
    have hrest := ih (by split_ifs <;> simp_all)
    have hmarks := marks_startTag hs hrest.marks.symm
    rw [tagText, List.cons_append] at hmarks ⊢
    exact .lt (List.cons_injective hmarks)
  | @close names rest s name out hs hclose _ ih =>
    obtain ⟨hmem, -, hsub⟩ := closing_some hclose
    obtain ⟨hname, junk, hjunk, -, hsplit⟩ := endTag_split hs
    have hrest := ih fun n hn => hnames n (hsub hn)
    refine .lt ?_
    have hprinted := marks_endTag (w := []) (hnames name hmem) (by simp) out
    rw [hsplit, marks_endTag hname hjunk, hrest.marks, ← hprinted]
    rfl
  | @stray names s out hs hclose _ ih =>
    obtain ⟨hname, junk, hjunk, -, hsplit⟩ := endTag_split hs
    have hprinted := marks_endTag (w := []) hname (by simp) out
    refine .lt ?_
    conv_lhs => rw [hsplit, marks_endTag hname hjunk, (ih hnames).marks, ← hprinted]
    rfl

lemma attributesText_eq {tag tag' : StartTag} (h : tag'.attributes = tag.attributes.map bare) :
    attributesText tag' = attributesText tag := by
  rw [attributesText, attributesText, h, foldl_bare, List.isEmpty_map]

lemma tagText_eq {tag tag' : StartTag} (hname : tag'.name = tag.name)
    (h : tag'.attributes = tag.attributes.map bare)
    (hmark : tag'.selfCloseMark = tag.selfCloseMark) :
    tagText tag' = tagText tag := by
  rw [tagText, tagText, hname, attributesText_eq h, hmark]

/-- **What is printed is printed again as it is.** -/
theorem Reprints.again (h : Reprints names r out) (hnames : ∀ n ∈ names, IsName n) :
    Reprints names out out := by
  induction h with
  | nil => exact .nil
  | @char names c r out hc h ih =>
    have hsame := (h.alike hnames).isTag c
    exact .char (hsame ▸ hc) (ih hnames)
  | @start names s r out tag hs h ih =>
    have hname : IsName tag.name := ⟨hs.name_ne, hs.name_alnum⟩
    have hopen : ∀ n ∈ if isClosedTag tag then names else tag.name :: names, IsName n := by
      split_ifs <;> simp_all
    obtain ⟨X, r', tag', htext, hX, hrest, hname', has, hmark⟩ :=
      hs.again (h.alike hopen).marks.symm
    have hclosed : isClosedTag tag' = isClosedTag tag := by
      rw [isClosedTag, isClosedTag, hname', hmark]
    have hprinted := Reprints.start hX (by rw [hclosed, hname', hrest]; exact ih hopen)
    rwa [tagText_eq hname' has hmark, ← htext] at hprinted
  | @close names rest s name out hs hclose h ih =>
    obtain ⟨hmem, hlower, hsub⟩ := closing_some hclose
    obtain ⟨hend, hread⟩ := endTag_again (hnames name hmem) out
    have hclose' : closing (readEndTag ('/' :: (name ++ '>' :: out))).1 names =
        some (name, rest) := by
      rw [hread, closing_congr hlower, hclose]
    have hprinted := Reprints.close hend hclose' (by
      rw [hread]
      exact ih fun n hn => hnames n (hsub hn))
    exact hprinted
  | @stray names s out hs hclose h ih =>
    obtain ⟨hname, -⟩ := endTag_split hs
    obtain ⟨hend, hread⟩ := endTag_again hname out
    have hprinted := Reprints.stray hend (by rw [hread]; exact hclose) (by
      rw [hread]
      exact ih hnames)
    rwa [hread] at hprinted

/-! ### Each text without a misplaced equals sign is printed -/

lemma startRead_ok (hs : isStartTag s) (hplaced : Placed (tokens (afterName s))) :
    ∃ tag r, StartRead s tag r ∧ tag.rest = tagEnd none (afterName s) := by
  obtain ⟨tag, r, -, hname, hreads, hfin⟩ := readStartTag_ok ('<' :: s) hs
  obtain ⟨hiff, hrest⟩ := complete_iff hreads hfin
  have hcomplete := hiff.mpr hplaced
  exact ⟨tag, r, ⟨hs, hname, hreads, hfin, hcomplete⟩, hrest hcomplete⟩

lemma startRead_length (h : StartRead s tag r) : tag.rest.length ≤ s.length :=
  (finished_suffix h.finished).length_le.trans
    (h.reads.suffix.length_le.trans (List.dropWhile_suffix _).length_le)

lemma reprints_ok (h : ∀ s ∈ startTags t, Placed (tokens (afterName s))) (names : List QString) :
    ∃ out, Reprints names t out := by
  induction hn : t.length using Nat.strong_induction_on generalizing t names with
  | _ n ih =>
    subst hn
    rcases t with _ | ⟨c, r⟩
    · exact ⟨[], .nil⟩
    by_cases htag : isTag (c :: r) = true
    · obtain rfl : c = '<' := by
        rw [isTag, Bool.and_eq_true, decide_eq_true_eq] at htag
        exact Option.some.inj htag.1
      rcases isStartTag_or htag with hs | ⟨u, rfl, hend⟩
      · rw [startTags_start htag hs, List.forall_mem_cons] at h
        obtain ⟨tag, r', hread, hrest⟩ := startRead_ok hs h.1
        rw [← hrest] at h
        have hlen := startRead_length hread
        obtain ⟨out, hout⟩ := ih tag.rest.length (Nat.lt_succ_of_le hlen) h.2
          (if isClosedTag tag then names else tag.name :: names) rfl
        exact ⟨_, .start hread hout⟩
      · rw [startTags, if_pos htag, if_pos hend] at h
        have hlen := readEndTag_length ('/' :: u)
        have hih := fun names =>
          ih (readEndTag ('/' :: u)).2.length (Nat.lt_succ_of_le hlen) h names rfl
        rcases hclose : closing (readEndTag ('/' :: u)).1 names with _ | ⟨name, rest⟩
        · obtain ⟨out, hout⟩ := hih names
          exact ⟨_, .stray hend hclose hout⟩
        · obtain ⟨out, hout⟩ := hih rest
          exact ⟨_, .close hend hclose hout⟩
    · rw [startTags, if_neg htag] at h
      obtain ⟨out, hout⟩ := ih r.length (Nat.lt_succ_self _) h names rfl
      exact ⟨_, .char (Bool.eq_false_iff.mpr htag) hout⟩

/-! ### What is kept of a text -/

/-- `r` is what is left of `s`, and the character before it is no slash. -/
def Past (s r : QString) : Prop := ∃ w, s = w ++ r ∧ ∀ c ∈ w.getLast?, c ≠ '/'

namespace Past

lemma refl (s : QString) : Past s s := ⟨[], rfl, by simp⟩

lemma trans (h₁ : Past s t) (h₂ : Past t r) : Past s r := by
  obtain ⟨v, rfl, hv⟩ := h₁
  obtain ⟨w, rfl, hw⟩ := h₂
  refine ⟨v ++ w, (List.append_assoc ..).symm, fun c hc => ?_⟩
  rw [List.getLast?_append] at hc
  cases hlast : w.getLast? with
  | none =>
    rw [hlast] at hc
    exact hv c hc
  | some d =>
    rw [hlast] at hc
    exact hw c (hlast ▸ hc)

lemma skipWhiteSpace (s : QString) : Past s (skipWhiteSpace s) := by
  refine ⟨s.takeWhile isSpace, (spaces_skipWhiteSpace s).symm, ?_⟩
  rintro c hc rfl
  exact absurd (mem_takeWhile (List.mem_of_getLast? hc)) (by decide)

lemma parseWord (s : QString) : Past s (parseWord s).2 := by
  refine ⟨(HtmlScan.parseWord s).1, (parseWord_append s).symm, fun c hc => ?_⟩
  by_cases hnil : (HtmlScan.parseWord s).1 = []
  · rw [hnil] at hc
    exact absurd hc (by simp)
  · obtain ⟨d, hd, -, hslash⟩ := (isWord_parseWord hnil).last
    rw [hd] at hc
    exact Option.some.inj hc ▸ hslash

lemma parseValue (s : QString) : Past s (parseValue s).2 := by
  rcases parseValue_cases s with ⟨u, hu, h⟩ | ⟨-, h⟩
  · have hequals : Past ('=' :: u) u := ⟨['='], rfl, by rintro _ ⟨⟩; decide⟩
    rw [h]
    exact (hu ▸ skipWhiteSpace s).trans (hequals.trans ((skipWhiteSpace u).trans (parseWord _)))
  · rw [h]
    exact skipWhiteSpace s

lemma reads {as : List Attribute} (h : Reads s as r) : Past s r := by
  induction h with
  | stop => exact skipWhiteSpace _
  | equals => exact skipWhiteSpace _
  | next _ _ ih => exact (skipWhiteSpace _).trans ((parseWord _).trans ((parseValue _).trans ih))

end Past

/-- What ends the attributes of a tag, and all behind it: the first greater sign or slash outside
the quotations. -/
def tagStop : Option Char → QString → QString
  | _, [] => []
  | some q, c :: r => tagStop (if c = q then none else some q) r
  | none, c :: r =>
    if c = '>' ∨ c = '/' then c :: r else tagStop (if isQuote c then some c else none) r

lemma tagStop_passes : Passes (tagStop none) where
  plain c r hc hslash := by
    rw [tagStop, if_neg (not_or.mpr ⟨isPlain_ne hc (by decide), hslash⟩),
      not_isQuote_of_isPlain hc, if_neg (by decide)]
  quoted q w r hq hw := by
    have hstop : ¬ (q = '>' ∨ q = '/') := by
      rintro (rfl | rfl) <;> exact absurd hq (by decide)
    rw [tagStop, if_neg hstop, if_pos hq]
    induction w with
    | nil => rw [List.nil_append, tagStop, if_pos rfl]
    | cons c w ih =>
      have hc : c ≠ q := fun h => hw (h ▸ List.mem_cons_self)
      rw [List.cons_append, tagStop, if_neg hc, ih fun h => hw (List.mem_cons_of_mem _ h)]

/-- A start tag that opens no element: a slash ends its attributes, or its name is one of these. -/
def closesItself (s : QString) : Bool :=
  (tagStop none (afterName s)).head? = some '/' ||
    [lit "img", lit "hr", lit "br", lit "meta"].contains (toLower (s.takeWhile isAlnum))

/-- The printed tag has the characters that are not white space of the attributes and of what ends
the tag, perhaps but for an equals sign that is the last of the attributes. -/
def SameTag (noValue : Bool) (front last shown : QString) : Prop :=
  strip shown = strip front ++ strip last ∨
    noValue ∧ ∃ x, strip front = x ++ ['='] ∧ strip shown = x ++ strip last

/-- `out` has the characters of the text that are not white space, inside open elements with these
names, innermost first. What is no tag is kept as it is. An end tag has the name of the element
that it closes, and only the name is kept; and there may be no equals sign that has no value behind
it. -/
inductive Kept (noValue : Bool) : List QString → QString → QString → Prop where
  | nil {names : List QString} : Kept noValue names [] []
  | char {names : List QString} {c : Char} {r out : QString} (hc : isTag (c :: r) = false)
      (h : Kept noValue names r out) : Kept noValue names (c :: r) (c :: out)
  | startTag {names : List QString} {s front v shown r out : QString} (htag : isStartTag s)
      (hsplit : '<' :: s = front ++ (v ++ '>' :: r))
      (hstop : tagStop none (afterName s) = v ++ '>' :: r) (hv : '>' ∉ v)
      (hsame : SameTag noValue front (v ++ ['>']) shown)
      (h : Kept noValue (if closesItself s then names else s.takeWhile isAlnum :: names) r out) :
      Kept noValue names ('<' :: s) (shown ++ out)
  | endTag {names rest : List QString} {name name' junk r out : QString} (hname : IsName name)
      (htag : isEndTag ('/' :: (name ++ (junk ++ '>' :: r))))
      (hjunk : '>' ∉ junk ∧ ∀ c ∈ junk.head?, isAlnum c = false)
      (hclose : closing name names = some (name', rest)) (h : Kept noValue rest r out) :
      Kept noValue names ('<' :: '/' :: (name ++ (junk ++ '>' :: r)))
        (lit "</" ++ (name' ++ '>' :: out))
  | strayTag {names : List QString} {name junk r out : QString} (hname : IsName name)
      (htag : isEndTag ('/' :: (name ++ (junk ++ '>' :: r))))
      (hjunk : '>' ∉ junk ∧ ∀ c ∈ junk.head?, isAlnum c = false)
      (hclose : closing name names = none) (h : Kept noValue names r out) :
      Kept noValue names ('<' :: '/' :: (name ++ (junk ++ '>' :: r)))
        (lit "</" ++ (name ++ '>' :: out))

lemma markLead_space {o : Option Char} (h : ∀ c ∈ o, c ≠ '/') : ∀ c ∈ markLead o, isSpace c := by
  intro c hc
  rcases o with _ | d
  · exact absurd hc List.not_mem_nil
  · rw [markLead, Option.filter_some] at hc
    split_ifs at hc with hd
    · obtain rfl := List.mem_singleton.mp hc
      simpa [h c rfl] using hd
    · exact absurd hc List.not_mem_nil

lemma strip_finished {pre : QString} (h : Finished (pre ++ r) r tag) (hc : tag.complete)
    (hmem : '>' ∈ r) (hpre : pre ≠ []) (hslash : ∀ c ∈ pre.getLast?, c ≠ '/') :
    ∃ v, r = v ++ '>' :: tag.rest ∧ '>' ∉ v ∧
      strip (v ++ ['>']) = strip (tag.selfCloseMark.getD [] ++ ['>']) := by
  cases h with
  | greater => exact ⟨[], rfl, List.not_mem_nil, rfl⟩
  | @slash name u as =>
    obtain ⟨v, hv⟩ := dropWhile_of_mem (show '>' ∈ u by simpa using hmem)
    have hchar : charBefore (pre ++ '/' :: u) ('/' :: u) = pre.getLast? :=
      charBefore_eq [] hpre ('/' :: u)
    refine ⟨'/' :: u.takeWhile (· ≠ '>'), ?_, ?_, ?_⟩
    · have hsplit := List.takeWhile_append_dropWhile (p := fun c => decide (c ≠ '>')) (l := u)
      rw [hv] at hsplit ⊢
      simpa using hsplit.symm
    · rw [List.mem_cons, not_or]
      exact ⟨by decide, fun h => absurd (mem_takeWhile h) (by decide)⟩
    · rw [hchar, Option.getD_some, List.takeWhile_cons_of_pos (by decide), ← markLead,
        List.append_assoc, strip_append (markLead _), strip_of_space (markLead_space hslash),
        List.nil_append]
  | equals => exact Bool.noConfusion hc

lemma tagStop_eq (h : StartRead s tag r) : tagStop none (afterName s) = r := by
  rw [← h.reads.passes tagStop_passes]
  rcases h.reads.head with hhead | hhead | hhead
  · obtain ⟨u, rfl⟩ := List.head?_eq_some_iff.mp hhead
    rw [tagStop, if_pos (.inl rfl)]
  · obtain ⟨u, rfl⟩ := List.head?_eq_some_iff.mp hhead
    rw [tagStop, if_pos (.inr rfl)]
  · exact absurd hhead h.stop_ne

lemma closesItself_eq (h : StartRead s tag r) : closesItself s = isClosedTag tag := by
  have hmark : decide (r.head? = some '/') = !(tag.selfCloseMark.getD []).isEmpty := by
    have hcomplete := h.complete
    cases h.finished with
    | greater => rfl
    | slash => simp
    | equals => exact Bool.noConfusion hcomplete
  rw [closesItself, isClosedTag, tagStop_eq h, h.name, hmark]

lemma sameTag_start (h : StartRead s tag r) : ∃ front v,
    '<' :: s = front ++ (v ++ '>' :: tag.rest) ∧
    tagStop none (afterName s) = v ++ '>' :: tag.rest ∧ '>' ∉ v ∧
      SameTag true front (v ++ ['>']) (tagText tag) := by
  obtain ⟨-, -, hbody, -⟩ := startTag_name h.start
  have hmem : '>' ∈ r := mem_of_tagBody (by rwa [h.reads.passes tagBody_passes])
  obtain ⟨w, hw, hslash⟩ := Past.reads h.reads
  have hsplit : '<' :: s = '<' :: (tag.name ++ w) ++ r := by
    rw [List.cons_append, List.append_assoc, ← hw, h.name, afterName,
      List.takeWhile_append_dropWhile]
  have hlast : ∀ c ∈ ('<' :: (tag.name ++ w)).getLast?, c ≠ '/' := by
    intro c hc
    rw [← List.singleton_append, ← List.append_assoc, List.getLast?_append] at hc
    cases hw' : w.getLast? with
    | some d =>
      rw [hw'] at hc
      exact hslash c (hw' ▸ hc)
    | none =>
      rw [hw', Option.none_or, List.getLast?_append,
        List.getLast?_eq_some_getLast h.name_ne] at hc
      obtain rfl := Option.some.inj hc
      exact isAlnum_ne (h.name_alnum _ (List.getLast_mem h.name_ne)) (by decide)
  have hfin := h.finished
  rw [hsplit] at hfin
  obtain ⟨v, hv, hgt, hstrip⟩ := strip_finished hfin h.complete hmem (by simp) hlast
  refine ⟨'<' :: (tag.name ++ w), v, by rw [hsplit, hv], (tagStop_eq h).trans hv, hgt, ?_⟩
  have hfront : strip ('<' :: (tag.name ++ w)) = strip ('<' :: tag.name) ++ strip w := by
    rw [← List.cons_append, strip_append]
  have hshown : strip (tagText tag) =
      strip ('<' :: tag.name) ++ (strip (attributesText tag) ++ strip (v ++ ['>'])) := by
    rw [hstrip, tagText, ← List.cons_append, strip_append, strip_append]
  rw [SameTag, hfront, hshown]
  rcases h.strip_text with htext | htext
  · rw [hw, strip_append] at htext
    rw [List.append_cancel_right htext, List.append_assoc]
    exact .inl rfl
  · -- the equals sign is the last of the attributes
    rw [hw, strip_append, ← List.singleton_append, ← List.append_assoc] at htext
    refine .inr ⟨rfl, strip ('<' :: tag.name) ++ strip (attributesText tag), ?_, ?_⟩
    · rw [List.append_cancel_right htext, List.append_assoc]
    · rw [List.append_assoc]

/-- **What is printed of a text keeps it.** -/
theorem Reprints.kept (h : Reprints names r out) : Kept true names r out := by
  induction h with
  | nil => exact .nil
  | char hc _ ih => exact .char hc ih
  | @start names s r out tag hs h ih =>
    obtain ⟨front, v, hsplit, hstop, hv, hsame⟩ := sameTag_start hs
    rw [← closesItself_eq hs, hs.name] at ih
    exact .startTag hs.start hsplit hstop hv hsame ih
  | @close names rest s name out hs hclose h ih =>
    obtain ⟨hname, junk, hjunk, hhead, hsplit⟩ := endTag_split hs
    have hkept := Kept.endTag hname (hsplit ▸ hs) ⟨gt_of_plain hjunk, hhead⟩ hclose ih
    rwa [← hsplit] at hkept
  | @stray names s out hs hclose h ih =>
    obtain ⟨hname, junk, hjunk, hhead, hsplit⟩ := endTag_split hs
    have hkept := Kept.strayTag hname (hsplit ▸ hs) ⟨gt_of_plain hjunk, hhead⟩ hclose ih
    rwa [← hsplit] at hkept

end TreeFrog.HtmlText
