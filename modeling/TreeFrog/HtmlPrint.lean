import TreeFrog.HtmlShown
import TreeFrog.HtmlText

/-!
A text parsed and printed again. While the parser runs, all it has read is what is printed of the
table: the last element is the last one that is printed, and the open elements around it have no end
tag yet.
-/

namespace TreeFrog.HtmlPrint

open ErbParser hiding parse parseLoop
open HtmlElement THtmlParser HtmlForest HtmlScan HtmlTag HtmlParser HtmlShown HtmlReprint HtmlText

variable {d d' : THtmlParser} {i j p : ℕ} {names : List QString} {tag : QString}

/-! ### The open elements -/

/-- The names of the open elements around `i`, itself included, innermost first. -/
inductive Opened (d : THtmlParser) : ℕ → List QString → Prop where
  | root : Opened d 0 []
  | skip {i : ℕ} {names : List QString} (hpos : 0 < i) (h : isOpen d i = false)
      (hp : Opened d (d.elements i).parent names) : Opened d i names
  | name {i : ℕ} {names : List QString} (hpos : 0 < i) (h : isOpen d i)
      (hp : Opened d (d.elements i).parent names) : Opened d i ((d.elements i).tag :: names)

lemma Opened.congr (h : Opened d i names) (hd : Forest d) (hi : i < d.elementCount)
    (heq : ∀ j ≤ i, (d'.elements j).parent = (d.elements j).parent ∧
      (d'.elements j).tag = (d.elements j).tag ∧ isOpen d' j = isOpen d j) : Opened d' i names := by
  induction h with
  | root => exact .root
  | @skip i names hpos h _ ih =>
    obtain ⟨hparent, -, hopen⟩ := heq i le_rfl
    have hlt := hd.parent_lt i hpos hi
    refine .skip hpos (hopen.trans h) ?_
    rw [hparent]
    exact ih (hlt.trans hi) fun j hj => heq j (hj.trans hlt.le)
  | @name i names hpos h _ ih =>
    obtain ⟨hparent, htag, hopen⟩ := heq i le_rfl
    have hlt := hd.parent_lt i hpos hi
    rw [← htag]
    refine .name hpos (hopen.trans h) ?_
    rw [hparent]
    exact ih (hlt.trans hi) fun j hj => heq j (hj.trans hlt.le)

lemma Opened.nearest (h : Nearest d (isOpen d) i j) (hi : Opened d i names) : Opened d j names := by
  induction h with
  | root => exact hi
  | here => exact hi
  | parent _ h _ ih =>
    cases hi with
    | root => exact absurd ‹0 < 0› (lt_irrefl 0)
    | skip _ _ hp => exact ih hp
    | name _ hopen => exact absurd (hopen.symm.trans h) (by decide)

lemma isOpened_iff (htag : tag ≠ []) :
    isOpened d tag i ↔ isOpen d i ∧ toLower (d.elements i).tag = toLower tag := by
  have hne : toLower (d.elements i).tag = toLower tag → (d.elements i).tag ≠ [] := by
    intro h hnil
    rw [hnil] at h
    exact htag (List.map_eq_nil_iff.mp h.symm)
  simp only [isOpened, isOpen, Bool.and_eq_true, Bool.not_eq_true', List.isEmpty_eq_false_iff,
    decide_eq_true_eq]
  tauto

lemma Opened.closing (h : Nearest d (isOpened d tag) i j) (htag : tag ≠ [])
    (hi : Opened d i names) : j = 0 ∧ closing tag names = none ∨
      0 < j ∧ ∃ rest, closing tag names = some ((d.elements j).tag, rest) ∧
        Opened d (d.elements j).parent rest := by
  induction h generalizing names with
  | root =>
    cases hi with
    | root => exact .inl ⟨rfl, rfl⟩
    | skip hpos => exact absurd hpos (lt_irrefl 0)
    | name hpos => exact absurd hpos (lt_irrefl 0)
  | @here i hpos h =>
    obtain ⟨hopen, heq⟩ := (isOpened_iff htag).mp h
    cases hi with
    | root => exact absurd hpos (lt_irrefl 0)
    | skip _ h => exact absurd (hopen.symm.trans h) (by decide)
    | name _ _ hp =>
      refine .inr ⟨hpos, _, ?_, hp⟩
      rw [HtmlText.closing, if_pos heq]
  | @parent i j hpos h _ ih =>
    cases hi with
    | root => exact absurd hpos (lt_irrefl 0)
    | skip _ _ hp => exact ih hp
    | name _ hopen hp =>
      have hne : toLower (d.elements i).tag ≠ toLower tag := fun heq =>
        absurd ((isOpened_iff htag).mpr ⟨hopen, heq⟩) (by simp [h])
      rw [HtmlText.closing, if_neg hne]
      exact ih hp

lemma below_of_nearest {stop : ℕ → Bool} (h : Nearest d stop i j) : Below d j i := by
  induction h with
  | root => exact .refl
  | here => exact .refl
  | parent hpos _ _ ih => exact .step hpos ih

/-! ### The end of what is printed -/

/-- Nothing is printed behind the children of the element. -/
def AtEnd (d : THtmlParser) (i : ℕ) : Prop := (d.elements i).endTag = [] ∧ behind d i = []

lemma AtEnd.above (h : AtEnd d i) (hd : Forest d) (hi : i < d.elementCount) (hj : Below d j i) :
    AtEnd d j := by
  induction hj with
  | refl => exact h
  | step hpos _ ih =>
    have hlt := hd.parent_lt _ hpos hi
    have hbehind := h.2
    rw [behind_child rfl hlt, List.append_eq_nil_iff, List.append_eq_nil_iff] at hbehind
    exact ih ⟨hbehind.1.2, hbehind.2⟩ (hlt.trans hi)

lemma shown_grow (hd : Forest d) (hl : Linked d) (hi : i < d.elementCount) (hend : AtEnd d i)
    {f : THtmlElement → THtmlElement} (hparent : ∀ e, (f e).parent = e.parent)
    (hchildren : ∀ e, (f e).children = e.children) {w : QString}
    (hf : (f (d.elements i)).toString ++ (d.elements i).children.flatMap (shown d) ++
      (f (d.elements i)).endTag =
        (d.elements i).toString ++ (d.elements i).children.flatMap (shown d) ++ w) :
    shown (d.modify i f) 0 = shown d 0 ++ w := by
  obtain ⟨hendTag, hbehind⟩ := hend
  rw [shown_modify hd hl hi hparent hchildren, hf, shown_split hd hl hi, shown_eq hd.ordered hi,
    hendTag, hbehind]
  simp only [List.append_nil, List.append_assoc]

/-- **An element is appended** at the end of what is printed. -/
lemma shown_append {e : THtmlElement} (h : Inserted d d' p (-1) e) (hd : Forest d) (hl : Linked d)
    (hp : p < d.elementCount) (hne : p ≠ newIndex d) (hend : AtEnd d p) :
    shown d' 0 = shown d 0 ++ (e.toString ++ e.endTag) ∧
      (e.endTag = [] → AtEnd d' d'.lastIndex) := by
  have hplace (l : List ℕ) (i : ℕ) : place l (-1) i = l ++ [i] := if_neg (by omega)
  obtain ⟨hendTag, hbehind⟩ := hend
  constructor
  · rw [shown_insert h hd hl hp hne (List.append_nil _).symm (hplace _ _), shown_split hd hl hp,
      shown_eq hd.ordered hp, flatMap_kept hd hp, hendTag, hbehind]
    simp
  · intro he
    have hd' := h.forest hd hp hne
    have hpn := lt_newIndex hd hp hne
    have hparent : (d'.elements (newIndex d)).parent = p := by rw [h.new]; rfl
    have hnew : newIndex d ∉ kept d p := fun hmem => ((mem_kept hd hp).mp hmem).1 rfl
    have hall : ∀ c ∈ kept d p, decide (c ≠ newIndex d) = true := fun c hc =>
      decide_eq_true fun heq => hnew (heq ▸ hc)
    have hold : (d'.elements p).endTag = (d.elements p).endTag := by rw [h.old p hpn]; rfl
    rw [h.lastIndex_eq]
    refine ⟨by rw [h.new]; exact he, ?_⟩
    rw [behind_child hparent hpn, h.children_old hpn, if_pos rfl, hplace,
      List.dropWhile_append_of_pos hall, hold, hendTag,
      ((Outside.inserted h hd hp hne).around_eq hd hd' hl hp (not_below_newIndex hd hp hne)
        .refl).2, hbehind]
    simp

/-- The table that is built, with the open elements around the last one. -/
structure Run (d : THtmlParser) (names : List QString) : Prop where
  built : Built d
  atEnd : AtEnd d d.lastIndex
  opened : Opened d d.lastIndex names

lemma run_new : Run .new [] where
  built := built_new
  atEnd := ⟨rfl, behind_zero forest_new⟩
  opened := .root

/-! ### The steps of the parser -/

lemma isOpen_relink {x : ℕ} {l : List ℕ} (h : d'.elements i = relink (d.elements i) x l) :
    isOpen d' i = isOpen d i := by
  rw [isOpen, isOpen, isElementClosed, isElementClosed, h]
  rfl

lemma Opened.inserted {index : ℤ} {e : THtmlElement} (h : Inserted d d' p index e) (hd : Forest d)
    (hp : p < d.elementCount) (hne : p ≠ newIndex d) (hopen : Opened d p names) :
    Opened d' p names := by
  refine hopen.congr hd hp fun j hj => ?_
  have hold := h.old j (hj.trans_lt (lt_newIndex hd hp hne))
  refine ⟨?_, ?_, isOpen_relink hold⟩ <;> rw [hold] <;> rfl

lemma run_append {e : THtmlElement} (h : Inserted d d' p (-1) e) (hd : Built d)
    (hp : p < d.elementCount) (hne : p ≠ newIndex d) (hend : AtEnd d p) (hopen : Opened d p names)
    (he : TextAlone e) (htag : e.endTag = []) :
    Run d' (if isOpen d' d'.lastIndex then e.tag :: names else names) ∧
      shown d' 0 = shown d 0 ++ e.toString ∧ Opened d' p names ∧ AtEnd d' p := by
  have hpn := lt_newIndex hd.forest hp hne
  have hbuilt := hd.inserted h hp hne he
  obtain ⟨hshown, hlast⟩ := shown_append h hd.forest hd.linked hp hne hend
  have hopen' := hopen.inserted h hd.forest hp hne
  have hlt := hbuilt.forest.lastIndex_lt
  rw [h.lastIndex_eq] at hlast hlt ⊢
  have hparent : (d'.elements (newIndex d)).parent = p := by rw [h.new]; rfl
  have htag' : (d'.elements (newIndex d)).tag = e.tag := by rw [h.new]; rfl
  have hpos : 0 < newIndex d := by omega
  have hbelow : Below d' p (newIndex d) := .step hpos (hparent.symm ▸ .refl)
  refine ⟨⟨hbuilt, ?_, ?_⟩, by rw [hshown, htag, List.append_nil], hopen',
    (hlast htag).above hbuilt.forest hlt hbelow⟩
  · rw [h.lastIndex_eq]
    exact hlast htag
  · rw [h.lastIndex_eq]
    split_ifs with ho
    · rw [← htag']
      exact .name hpos ho (hparent.symm ▸ hopen')
    · exact .skip hpos (Bool.eq_false_iff.mpr ho) (hparent.symm ▸ hopen')

lemma run_append_empty (h : Inserted d d' p (-1) {}) (hd : Built d) (hp : p < d.elementCount)
    (hne : p ≠ newIndex d) (hend : AtEnd d p) (hopen : Opened d p names) :
    Run d' names ∧ shown d' 0 = shown d 0 := by
  obtain ⟨hrun, hshown, -⟩ := run_append h hd hp hne hend hopen (fun _ => ⟨rfl, rfl, rfl⟩) rfl
  have hclosed : isOpen d' d'.lastIndex = false := by
    rw [h.lastIndex_eq, isOpen, h.new]
    rfl
  rw [hclosed] at hrun
  exact ⟨hrun, by rw [hshown]; exact List.append_nil _⟩

lemma fill_toString (t : StartTag) :
    (fill t {}).toString = if t.name = [] then [] else tagText t := by
  by_cases h : t.name = []
  · simp [THtmlElement.toString, fill, h]
  · simp [THtmlElement.toString, THtmlElement.attributesString, fill, h, tagText, attributesText]

namespace Run

lemma lastIndex_lt (h : Run d names) : d.lastIndex < d.elementCount := h.built.forest.lastIndex_lt

lemma appendText (h : Run d names) (w : QString) :
    Run (appendText d w) names ∧ shown (HtmlParser.appendText d w) 0 = shown d 0 ++ w := by
  have hforest := h.built.forest
  have hlast := h.lastIndex_lt
  obtain ⟨hendTag, hbehind⟩ := h.atEnd
  have hbuilt := h.built.appendText w
  have hout : Outside d (HtmlParser.appendText d w) d.lastIndex d.elementCount :=
    Outside.modify hforest d.lastIndex fun _ => rfl
  refine ⟨⟨hbuilt, ⟨?_, ?_⟩, ?_⟩, ?_⟩
  · rw [HtmlParser.appendText, lastIndex_modify, elements_modify_self]
    exact hendTag
  · rw [HtmlParser.appendText, lastIndex_modify]
    exact (hout.around_eq hforest hbuilt.forest h.built.linked hlast (not_below_count hforest hlast)
      .refl).2.trans hbehind
  · refine h.opened.congr hforest hlast fun j _ => ?_
    rw [isOpen, isOpen, isElementClosed, isElementClosed, HtmlParser.appendText, elements_modify]
    split_ifs with hj
    · rw [hj]
      exact ⟨rfl, rfl, rfl⟩
    · exact ⟨rfl, rfl, rfl⟩
  · refine shown_grow hforest h.built.linked hlast h.atEnd
      (f := fun e => { e with text := e.text ++ w }) (fun _ => rfl) (fun _ => rfl) ?_
    have hendTag' : ({ d.elements d.lastIndex with
        text := (d.elements d.lastIndex).text ++ w } : THtmlElement).endTag = [] := hendTag
    rw [hforest.children_last]
    simp only [List.flatMap_nil, List.append_nil]
    refine (congrArg _ hendTag').trans ?_
    simp [THtmlElement.toString, THtmlElement.attributesString]

lemma startElement {t : StartTag} (h : Run d names) (hnear : Nearest d (isOpen d) d.lastIndex p)
    (ht : t.name ≠ []) :
    Run (startElement d t p) (if isClosedTag t then names else t.name :: names) ∧
      shown (HtmlParser.startElement d t p) 0 = shown d 0 ++ tagText t := by
  have hforest := h.built.forest
  have hlast := h.lastIndex_lt
  have hp := (hnear.le hforest hlast).trans_lt hlast
  have htag : p = 0 ∨ (d.elements p).tag ≠ [] :=
    (Nat.eq_zero_or_pos p).imp_right fun hpos => tag_ne_of_isOpen (hnear.stops hpos)
  have hend := h.atEnd.above hforest hlast (below_of_nearest hnear)
  obtain ⟨d₁, hins, hbuilt, hre, hstart⟩ := startElement_spec h.built hp htag ht
  obtain ⟨hrun, hshown, hopen, hend₁⟩ := run_append hins h.built hp (ne_newIndex hp htag) hend
    (h.opened.nearest hnear) (textAlone_fill ht _) (by simp [fill, THtmlElement.endTag])
  rw [fill_toString, if_neg ht] at hshown
  have hisOpen : isOpen d₁ d₁.lastIndex = !isClosedTag t := by
    have htag' : (d₁.elements d₁.lastIndex).tag = t.name := by rw [hins.lastIndex_eq, hins.new]; rfl
    rw [isOpen, isElementClosed_fill hforest hins, htag', List.isEmpty_eq_false_iff.mpr ht]
    rfl
  rw [hisOpen] at hrun
  by_cases hclosed : isClosedTag t
  · rw [if_pos hclosed] at hstart
    have hp₁ : p < d₁.elementCount := by
      have := newIndex_le hforest
      have := hins.count_eq
      omega
    have hne₁ : p ≠ newIndex d₁ := by
      rw [newIndex, if_neg hre]
      exact hp₁.ne
    obtain ⟨hrun', hshown'⟩ := run_append_empty hstart hbuilt hp₁ hne₁ hend₁ hopen
    rw [if_pos hclosed]
    exact ⟨hrun', hshown'.trans hshown⟩
  · rw [if_neg hclosed] at hstart ⊢
    rw [hstart]
    simp only [hclosed, Bool.not_false, if_true] at hrun
    exact ⟨hrun, hshown⟩

lemma endElement (h : Run d names) (hnear : Nearest d (isOpened d tag) d.lastIndex i)
    (hi : 0 < i) {rest : List QString} (hopen : Opened d (d.elements i).parent rest) :
    Run (endElement d tag i) rest ∧ shown (HtmlParser.endElement d tag i) 0 =
      shown d 0 ++ (lit "</" ++ ((d.elements i).tag ++ lit ">")) := by
  have hforest := h.built.forest
  have hlast := h.lastIndex_lt
  have hic := (hnear.le hforest hlast).trans_lt hlast
  have htag := tag_ne_of_isOpened (hnear.stops hi)
  have hlt := hforest.parent_lt i hi hic
  have hpc := hlt.trans hic
  obtain ⟨hbuilt, hins⟩ := endElement_spec h.built hi hic htag tag
  set d₁ := d.modify i fun e => { e with tagClosed := true } with hd₁
  obtain ⟨hendTag, hbehind⟩ := h.atEnd.above hforest hlast (below_of_nearest hnear)
  have hparent : Below d (d.elements i).parent i := .step hi .refl
  obtain ⟨hendTag', hbehind'⟩ := AtEnd.above ⟨hendTag, hbehind⟩ hforest hic hparent
  have hout : Outside d d₁ i d.elementCount := Outside.modify hforest i fun _ => rfl
  -- the parent is at the end, since closing the element changes nothing outside it
  have hend₁ : AtEnd d₁ (d.elements i).parent := by
    refine ⟨?_, ?_⟩
    · rw [hd₁, elements_modify_ne _ hlt.ne]
      exact hendTag'
    · exact (hout.around_eq hforest hbuilt.forest h.built.linked hic (not_below_count hforest hic)
        hparent).2.trans hbehind'
  have hopen₁ : Opened d₁ (d.elements i).parent rest := by
    refine hopen.congr hforest hpc fun j hj => ?_
    have hji : j ≠ i := by omega
    rw [isOpen, isOpen, isElementClosed, isElementClosed, hd₁, elements_modify_ne _ hji]
    exact ⟨rfl, rfl, rfl⟩
  have hne : (d.elements i).parent ≠ newIndex d₁ := by
    have := lt_newIndex hbuilt.forest hic (ne_newIndex hic (.inr (by
      rw [hd₁, elements_modify_self]
      exact htag)))
    omega
  obtain ⟨hrun, hshown⟩ := run_append_empty hins hbuilt hpc hne hend₁ hopen₁
  refine ⟨hrun, hshown.trans ?_⟩
  refine shown_grow hforest h.built.linked hic ⟨hendTag, hbehind⟩
    (f := fun e => { e with tagClosed := true }) (fun _ => rfl) (fun _ => rfl) ?_
  refine congrArg₂ _ rfl ?_
  simp [THtmlElement.endTag, htag, lit]

end Run

/-! ### A start tag is read in one way -/

variable {s r r' out txt : QString} {as as' : List Attribute} {t t' : StartTag}

lemma parseWord_stop (h : (skipWhiteSpace s).head? = some '>' ∨
    (skipWhiteSpace s).head? = some '/' ∨ (skipWhiteSpace s).head? = some '=') :
    (parseWord (skipWhiteSpace s)).1 = [] := by
  rcases h with h | h | h <;>
    obtain ⟨u, hu⟩ := List.head?_eq_some_iff.mp h <;>
    rw [hu, parseWord_of_not (by decide) (by decide)]

lemma reads_unique (h : Reads s as r) (h' : Reads s as' r') : as = as' ∧ r = r' := by
  induction h generalizing as' with
  | @stop s h =>
    cases h' with
    | stop => exact ⟨rfl, rfl⟩
    | equals h' => simp [h'] at h
    | next hkey => exact absurd (parseWord_stop (h.imp_right .inl)) hkey
  | @equals s h =>
    cases h' with
    | stop h' => simp [h] at h'
    | equals => exact ⟨rfl, rfl⟩
    | next hkey => exact absurd (parseWord_stop (.inr (.inr h))) hkey
  | @next s as r hkey _ ih =>
    cases h' with
    | stop h' => exact absurd (parseWord_stop (h'.imp_right .inl)) hkey
    | equals h' => exact absurd (parseWord_stop (.inr (.inr h'))) hkey
    | next _ h' =>
      obtain ⟨rfl, rfl⟩ := ih h'
      exact ⟨rfl, rfl⟩

lemma finished_unique (h : Finished txt r t) (h' : Finished txt r t') (hname : t.name = t'.name)
    (has : t.attributes = t'.attributes) : t = t' := by
  cases h <;> cases h' <;> simp_all

lemma readStartTag_eq {pre : QString} (h : StartRead s t r) :
    readStartTag (pre ++ '<' :: s) s = .ok t := by
  obtain ⟨t', r', hread, hname, hreads, hfin⟩ := readStartTag_ok (pre ++ '<' :: s) h.start
  obtain ⟨has, rfl⟩ := reads_unique h.reads hreads
  have hsuffix := h.reads.suffix.trans (List.dropWhile_suffix _)
  rw [hread, finished_unique h.finished (finished_of_append hsuffix hfin) (h.name.trans hname.symm)
    has]

/-! ### The whole text -/

lemma fuel_succ {c : Char} {fuel : ℕ} (h : (c :: r).length ≤ fuel) :
    ∃ n, fuel = n + 1 ∧ r.length ≤ n := by
  rw [List.length_cons] at h
  exact ⟨fuel - 1, by omega, by omega⟩

lemma parseLoop_tag {fuel : ℕ} {asserted : Bool} {st : State}
    (htag : isStartTag s ∨ isEndTag s) (h : parseTag txt ⟨d, s, asserted⟩ = .ok st) :
    parseLoop txt (fuel + 1) ⟨d, '<' :: s, asserted⟩ = parseLoop txt fuel st := by
  have hisTag : isTag ('<' :: s) := by rcases htag with h | h <;> simp [isTag, h]
  rw [parseLoop]
  simp only [decide_true, hisTag, Bool.and_self, if_true, h, Except.bind]

lemma readEndTag_suffix (hs : isEndTag s) : (readEndTag s).2 <:+ '<' :: s := by
  obtain ⟨-, junk, -, -, hsplit⟩ := endTag_split hs
  conv => arg 2; rw [hsplit]
  exact ⟨'<' :: '/' :: ((readEndTag s).1 ++ (junk ++ ['>'])), by simp⟩

/-- **The parser puts all it reads at the end** of what is printed. -/
theorem parseLoop_prints (h : Reprints names r out) {d : THtmlParser} (hrun : Run d names)
    {fuel : ℕ} (hfuel : r.length ≤ fuel) (htxt : r <:+ txt) (asserted : Bool) :
    ∃ st, parseLoop txt fuel ⟨d, r, asserted⟩ = .ok st ∧ Built st.doc ∧ st.asserted = asserted ∧
      shown st.doc 0 = shown d 0 ++ out := by
  induction h generalizing d fuel with
  | nil =>
    refine ⟨⟨d, [], asserted⟩, ?_, hrun.built, rfl, (List.append_nil _).symm⟩
    cases fuel <;> rfl
  | @char names c r out hc _ ih =>
    obtain ⟨fuel, rfl, hle⟩ := fuel_succ hfuel
    obtain ⟨hrun', hshown⟩ := hrun.appendText [c]
    obtain ⟨st, hok, hbuilt, hasserted, hst⟩ := ih hrun' hle
      ((List.suffix_cons c r).trans htxt)
    refine ⟨st, ?_, hbuilt, hasserted, ?_⟩
    · rw [parseLoop]
      simpa [hc] using hok
    · rw [hst, hshown, List.append_assoc, List.singleton_append]
  | @start names s r out tag hs _ ih =>
    obtain ⟨fuel, rfl, hle⟩ := fuel_succ hfuel
    -- the tag is matched in the whole text, at the position behind `pre`
    obtain ⟨pre, hpre⟩ := htxt
    obtain ⟨t, p, hparse, hread, hnear⟩ := parseTag_start txt ⟨d, s, asserted⟩ hrun.built hs.start
    rw [← hpre, readStartTag_eq hs] at hread
    obtain rfl : tag = t := Except.ok.inj hread
    obtain ⟨hrun', hshown⟩ := hrun.startElement hnear hs.name_ne
    have hlen := startRead_length hs
    have hsuffix : tag.rest <:+ '<' :: s :=
      ((finished_suffix hs.finished).trans (hs.reads.suffix.trans (List.dropWhile_suffix _))).trans
        (List.suffix_cons '<' s)
    obtain ⟨st, hok, hbuilt, hasserted, hst⟩ := ih hrun'
      (hlen.trans hle) (hsuffix.trans ⟨pre, hpre⟩)
    rw [hs.complete, Bool.not_true, Bool.or_false] at hparse
    refine ⟨st, (parseLoop_tag (.inl hs.start) hparse).trans hok, hbuilt, hasserted, ?_⟩
    rw [hst, hshown, List.append_assoc]
  | @close names rest s name out hs hclose _ ih =>
    obtain ⟨fuel, rfl, hle⟩ := fuel_succ hfuel
    obtain ⟨hname, _, -, -, hsplit⟩ := endTag_split hs
    obtain ⟨i, hparse, hnear⟩ := parseTag_end txt ⟨d, s, asserted⟩ hrun.built hsplit
    have hclosing := hrun.opened.closing hnear hname.1
    -- an open element has the name
    rw [hclose] at hclosing
    obtain ⟨hi, rest', hnames, hopen⟩ :=
      hclosing.resolve_left fun hno => by simp at hno
    obtain ⟨rfl, rfl⟩ := Prod.mk.inj (Option.some.inj hnames)
    obtain ⟨hrun', hshown⟩ := hrun.endElement hnear hi hopen
    have hlen := readEndTag_length s
    obtain ⟨st, hok, hbuilt, hasserted, hst⟩ := ih hrun' (hlen.trans hle)
      ((readEndTag_suffix hs).trans htxt)
    refine ⟨st, (parseLoop_tag (.inr hs) hparse).trans hok, hbuilt, hasserted, ?_⟩
    rw [hst, hshown]
    simp only [List.append_assoc]
  | @stray names s out hs hclose _ ih =>
    obtain ⟨fuel, rfl, hle⟩ := fuel_succ hfuel
    obtain ⟨hname, _, -, -, hsplit⟩ := endTag_split hs
    obtain ⟨i, hparse, hnear⟩ := parseTag_end txt ⟨d, s, asserted⟩ hrun.built hsplit
    have hclosing := hrun.opened.closing hnear hname.1
    rw [hclose] at hclosing
    obtain ⟨rfl, -⟩ := hclosing.resolve_right fun hsome => by simp at hsome
    have hdoc : endElement d (readEndTag s).1 0 =
        HtmlParser.appendText d (lit "</" ++ (readEndTag s).1 ++ lit ">") := if_neg (lt_irrefl 0)
    -- no open element has the name: the tag is kept as a text
    rw [hdoc] at hparse
    obtain ⟨hrun', hshown⟩ := hrun.appendText (lit "</" ++ (readEndTag s).1 ++ lit ">")
    have hlen := readEndTag_length s
    obtain ⟨st, hok, hbuilt, hasserted, hst⟩ := ih hrun' (hlen.trans hle)
      ((readEndTag_suffix hs).trans htxt)
    refine ⟨st, (parseLoop_tag (.inr hs) hparse).trans hok, hbuilt, hasserted, ?_⟩
    rw [hst, hshown]
    simp only [List.append_assoc]

lemma parse_prints (trimMode : TrimMode) {text : QString} (htrim : trimMode ≠ .strongTrim)
    (h : Reprints [] text out) : ∃ st, parse trimMode text = .ok st ∧ st.asserted = false ∧
      st.doc.toString = some out := by
  obtain ⟨st, hok, hbuilt, hasserted, hst⟩ :=
    parseLoop_prints h run_new le_rfl List.suffix_rfl false
  refine ⟨st, ?_, hasserted, ?_⟩
  · rw [parse, trimmedText, if_neg htrim]
    exact hok
  · rw [toString_eq hbuilt.forest, hst]
    rfl

/-- **Parsing and printing keeps a text** on which no assertion is reached, but for the letter case
of end tags, what is in them behind their names, and equals signs without a value. What is printed
is printed again as it is. -/
theorem parse_toString {trimMode : TrimMode} {text : QString} {st : State}
    (htrim : trimMode ≠ .strongTrim) (h : parse trimMode text = .ok st)
    (hasserted : st.asserted = false) : ∃ s, st.doc.toString = some s ∧ Kept true [] text s ∧
      ∃ st', parse trimMode s = .ok st' ∧ st'.asserted = false ∧ st'.doc.toString = some s := by
  rw [parse, trimmedText, if_neg htrim] at h
  obtain ⟨st₁, hok, -, hiff⟩ := parseLoop_ok text ⟨.new, text, false⟩ built_new le_rfl
  obtain rfl : st₁ = st := Except.ok.inj (hok.symm.trans h)
  obtain ⟨out, hout⟩ := reprints_ok (hiff.mp hasserted).2 []
  obtain ⟨st₂, hok₂, hbuilt, -, hst⟩ :=
    parseLoop_prints hout run_new le_rfl List.suffix_rfl false
  obtain rfl : st₂ = st₁ := Except.ok.inj (hok₂.symm.trans hok)
  refine ⟨out, ?_, hout.kept, ?_⟩
  · rw [toString_eq hbuilt.forest, hst]
    rfl
  · exact parse_prints trimMode htrim (hout.again (by simp))

/-- `<P a = 'b'>x</p >`. -/
theorem parse_toString_upper : ∃ st s,
    parse .trimOff (lit "<P a = 'b'>x</p >") = .ok st ∧ st.doc.toString = some s ∧
      Kept true [] (lit "<P a = 'b'>x</p >") s := by
  have hrun : (parse .trimOff (lit "<P a = 'b'>x</p >")).toOption.map State.asserted =
      some false := by decide +kernel
  cases h : parse .trimOff (lit "<P a = 'b'>x</p >") with
  | error => simp [h, Except.toOption] at hrun
  | ok st =>
    obtain ⟨s, hs, hkept, -⟩ :=
      parse_toString (by decide) h (by simpa [h, Except.toOption] using hrun)
    exact ⟨st, s, rfl, hs, hkept⟩

lemma Kept.equals (h : Kept false names r out) (hr : '=' ∈ r) (hslash : '/' ∉ r) : '=' ∈ out := by
  induction h with
  | nil => exact hr
  | char _ _ ih =>
    rcases List.mem_cons.mp hr with rfl | hr
    · exact List.mem_cons_self
    · exact List.mem_cons_of_mem _ (ih hr fun h => hslash (List.mem_cons_of_mem _ h))
  | @startTag names s front v shown r out _ hsplit _ _ hsame _ ih =>
    have hshown := hsame.resolve_right (by simp)
    rw [hsplit] at hr hslash
    have hsign : '=' ∈ front ++ (v ++ ['>']) ∨ '=' ∈ r := by
      simpa [or_assoc] using hr
    rw [List.mem_append]
    rcases hsign with hsign | hr
    · have hmem : '=' ∈ strip (front ++ (v ++ ['>'])) := List.mem_filter.mpr ⟨hsign, by decide⟩
      rw [strip_append, ← hshown] at hmem
      exact .inl (List.mem_filter.mp hmem).1
    · exact .inr (ih hr fun h => hslash (by simp [h]))
  | endTag => exact absurd (by simp) hslash
  | strayTag => exact absurd (by simp) hslash

/-- `<a b=>`. -/
theorem parse_toString_noValue : ¬∀ (trimMode : TrimMode) (text : QString) (st : State),
    trimMode ≠ .strongTrim → parse trimMode text = .ok st → st.asserted = false →
      ∃ s, st.doc.toString = some s ∧ Kept false [] text s ∧
        ∃ st', parse trimMode s = .ok st' ∧ st'.asserted = false ∧ st'.doc.toString = some s := by
  intro h
  have hrun : (parse .trimOff (lit "<a b=>")).toOption.map
      (fun st => (st.asserted, st.doc.toString)) = some (false, some (lit "<a b>")) := by decide
  cases hok : parse .trimOff (lit "<a b=>") with
  | error => simp [hok, Except.toOption] at hrun
  | ok st =>
    simp only [hok, Except.toOption, Option.map_some, Option.some.injEq, Prod.mk.injEq] at hrun
    obtain ⟨s, hs, hkept, -⟩ := h _ _ st (by decide) hok hrun.1
    obtain rfl : lit "<a b>" = s := Option.some.inj (hrun.2.symm.trans hs)
    exact absurd (Kept.equals hkept (by decide) (by decide)) (by decide)

end TreeFrog.HtmlPrint
