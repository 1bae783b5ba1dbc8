import TreeFrog.HtmlForest
import TreeFrog.HtmlTag

/-!
`THtmlParser::parse`: from a text to the table of its elements. A start tag becomes an element below
the nearest open one, an end tag closes the nearest open element of its name, and all other text
goes to the last element.

The parser asserts that a start tag ends where its attributes do. An equals sign where none belongs
breaks that, and nothing else does.
-/

namespace TreeFrog.HtmlParser

open ErbParser Regular HtmlElement THtmlParser HtmlForest HtmlScan HtmlTag

/-! ### The parser -/

/-- The text from the position on, the elements so far, and whether the assertion was broken. -/
structure State where
  doc : THtmlParser
  rest : QString
  asserted : Bool

/-- The loop over the parents, from `i` on. -/
def enclosing (d : THtmlParser) (stop : ℕ → Bool) : ℕ → ℕ → Except Fault ℕ
  | 0, _ => .error .outOfFuel
  | fuel + 1, i =>
    if 0 < i then if stop i then .ok i else enclosing d stop fuel (d.elements i).parent
    else .ok i

def isOpen (d : THtmlParser) (i : ℕ) : Bool :=
  !(d.elements i).tag.isEmpty && !d.isElementClosed i

def isOpened (d : THtmlParser) (tag : QString) (i : ℕ) : Bool :=
  !tag.isEmpty && toLower (d.elements i).tag = toLower tag && !d.isElementClosed i

def appendText (d : THtmlParser) (w : QString) : THtmlParser :=
  d.modify d.lastIndex fun e => { e with text := e.text ++ w }

/-- What `parseTag` writes to the element of a start tag. -/
def fill (t : StartTag) (e : THtmlElement) : THtmlElement :=
  { e with
    tag := t.name
    attributes := t.attributes
    selfCloseMark := t.selfCloseMark.getD e.selfCloseMark }

/-- `parseTag`, as far as it writes elements. -/
def startElement (d : THtmlParser) (t : StartTag) (p : ℕ) : THtmlParser :=
  let d := d.appendNewElement p
  let d := d.modify d.lastIndex (fill t)
  if d.isElementClosed d.lastIndex then d.appendNewElement (d.elements d.lastIndex).parent else d

/-- `parseCloseTag`, as far as it writes elements. -/
def endElement (d : THtmlParser) (tag : QString) (i : ℕ) : THtmlParser :=
  if 0 < i then
    (d.modify i fun e => { e with tagClosed := true }).appendNewElement (d.elements i).parent
  else appendText d (lit "</" ++ tag ++ lit ">")

def parseCloseTag (st : State) : Except Fault State :=
  let tag := readEndTag st.rest
  (enclosing st.doc (isOpened st.doc tag.1) st.doc.elementCount st.doc.lastIndex).map fun i =>
    { st with doc := endElement st.doc tag.1 i, rest := tag.2 }

/-- `parseTag`, behind the `<`. -/
def parseTag (txt : QString) (st : State) : Except Fault State :=
  (charAt st.rest).bind fun c =>
  if c = '/' then parseCloseTag st
  else
    (enclosing st.doc (isOpen st.doc) st.doc.elementCount st.doc.lastIndex).bind fun p =>
    (readStartTag txt st.rest).map fun t =>
      { doc := startElement st.doc t p
        rest := t.rest
        asserted := st.asserted || !t.complete }

/-- The loop of `parse`. -/
def parseLoop (txt : QString) : ℕ → State → Except Fault State
  | 0, st => if st.rest.isEmpty then .ok st else .error .outOfFuel
  | fuel + 1, st =>
    match st.rest with
    | [] => .ok st
    | c :: r =>
      if c = '<' && isTag (c :: r) then
        (parseTag txt { st with rest := r }).bind (parseLoop txt fuel)
      else parseLoop txt fuel { st with doc := appendText st.doc [c], rest := r }

/-- The lines with text, each trimmed. -/
def strongTrim (text : QString) : QString :=
  htmlTrim (((text.splitOn '\n').filterMap fun line =>
    let trm := htmlTrim line
    if trm.isEmpty then none else some (trm ++ ['\n'])).flatten)

/-- The text that is parsed. -/
def trimmedText (trimMode : TrimMode) (text : QString) : QString :=
  if trimMode = .strongTrim then strongTrim text else text

def parse (trimMode : TrimMode) (text : QString) : Except Fault State :=
  let txt := trimmedText trimMode text
  parseLoop txt txt.length { doc := .new, rest := txt, asserted := false }

/-! ### The elements that are enclosed -/

variable {d d' : THtmlParser} {i p : ℕ} {r : QString}

/-- The nearest among `i` and its ancestors where the loop stops. -/
inductive Nearest (d : THtmlParser) (stop : ℕ → Bool) : ℕ → ℕ → Prop where
  | root : Nearest d stop 0 0
  | here {i : ℕ} (hpos : 0 < i) (h : stop i) : Nearest d stop i i
  | parent {i j : ℕ} (hpos : 0 < i) (h : stop i = false)
      (hj : Nearest d stop (d.elements i).parent j) : Nearest d stop i j

lemma enclosing_ok (stop : ℕ → Bool) {fuel : ℕ} (hd : Forest d) (hi : i < d.elementCount)
    (hfuel : i < fuel) : ∃ j, enclosing d stop fuel i = .ok j ∧ Nearest d stop i j := by
  induction fuel generalizing i with
  | zero => omega
  | succ fuel ih =>
    rw [enclosing]
    split_ifs with hpos hstop
    · exact ⟨i, rfl, .here hpos hstop⟩
    · have hlt := hd.parent_lt i hpos hi
      obtain ⟨j, hok, hj⟩ := ih (hlt.trans hi) (by omega)
      exact ⟨j, hok, .parent hpos (Bool.eq_false_iff.mpr hstop) hj⟩
    · obtain rfl : i = 0 := by omega
      exact ⟨0, rfl, .root⟩

namespace Nearest

variable {stop : ℕ → Bool} {j : ℕ}

lemma le (h : Nearest d stop i j) (hd : Forest d) (hi : i < d.elementCount) : j ≤ i := by
  induction h with
  | root => exact le_rfl
  | here => exact le_rfl
  | parent hpos _ _ ih =>
    have hlt := hd.parent_lt _ hpos hi
    exact (ih (hlt.trans hi)).trans hlt.le

lemma stops (h : Nearest d stop i j) (hj : 0 < j) : stop j := by
  induction h with
  | root => exact absurd hj (lt_irrefl 0)
  | here _ h => exact h
  | parent _ _ _ ih => exact ih hj

end Nearest

/-- The last element is not used again below itself: no element without a name is taken. -/
lemma ne_newIndex (hp : p < d.elementCount) (htag : p = 0 ∨ (d.elements p).tag ≠ []) :
    p ≠ newIndex d := by
  rw [newIndex]
  split_ifs with h
  · rintro rfl
    rcases htag with hzero | htag
    · have := h.1
      rw [lastIndex] at hzero
      omega
    · have hempty := h.2
      simp only [THtmlElement.isEmpty, Bool.and_eq_true, List.isEmpty_iff] at hempty
      exact htag hempty.1.1
  · exact hp.ne

/-! ### The tables that the parser builds -/

/-- An element without a name is text alone. -/
def TextAlone (e : THtmlElement) : Prop :=
  e.tag = [] → e.attributes = [] ∧ e.selfCloseMark = [] ∧ e.tagClosed = false

/-- What holds of the elements while the parser adds to them. -/
structure Built (d : THtmlParser) : Prop where
  forest : Forest d
  linked : Linked d
  textAlone : ∀ i < d.elementCount, TextAlone (d.elements i)
  /-- Only the last element is empty. -/
  blank : ∀ i, 0 < i → i < d.elementCount → (d.elements i).isEmpty → i = d.lastIndex

lemma built_new : Built .new where
  forest := forest_new
  linked := linked_new
  textAlone i _ _ := ⟨rfl, rfl, rfl⟩
  blank i hi hlt := absurd hlt (by simp [THtmlParser.new]; omega)

lemma isEmpty_iff {e : THtmlElement} :
    e.isEmpty ↔ e.tag = [] ∧ e.text = [] ∧ e.attributes = [] := by
  simp [THtmlElement.isEmpty, and_assoc]

namespace Built

lemma newElement_eq (hd : Built d) (p : ℕ) : relink (newElement d) p [] = relink {} p [] := by
  rw [newElement]
  split_ifs with h
  · obtain ⟨htag, htext, hattr⟩ := isEmpty_iff.mp h.2
    obtain ⟨-, hmark, hclosed⟩ := hd.textAlone _ hd.forest.lastIndex_lt htag
    rw [THtmlParser.last] at htag htext hattr
    simp only [relink, THtmlParser.last, htag, htext, hattr, hmark, hclosed]
  · rfl

lemma modify (hd : Built d) {f : THtmlElement → THtmlElement}
    (hparent : ∀ e, (f e).parent = e.parent) (hchildren : ∀ e, (f e).children = e.children)
    (hempty : ∀ e, (f e).isEmpty → e.isEmpty) (halone : TextAlone (f (d.elements i))) :
    Built (d.modify i f) where
  forest := (SubLinks.modify d i hparent fun e => (hchildren e).symm ▸ .refl _).forest hd.forest
  linked := hd.linked.modify i hparent hchildren
  textAlone j hj := by
    rw [elements_modify]
    split_ifs
    · exact halone
    · exact hd.textAlone j hj
  blank j hpos hj h := by
    rw [elements_modify] at h
    refine hd.blank j hpos hj ?_
    split_ifs at h with hji
    · rw [hji]
      exact hempty _ h
    · exact h

lemma inserted {index : ℤ} {e : THtmlElement} (hd : Built d) (h : Inserted d d' p index e)
    (hp : p < d.elementCount) (hne : p ≠ newIndex d) (he : TextAlone e) : Built d' where
  forest := h.forest hd.forest hp hne
  linked := h.linked hd.forest hd.linked hp hne
  textAlone i hi := by
    rw [h.count_eq] at hi
    rcases Nat.lt_or_ge i (newIndex d) with hlt | hge
    · rw [h.old i hlt]
      exact hd.textAlone i (by have := newIndex_le hd.forest; omega)
    · obtain rfl : i = newIndex d := by omega
      rw [h.new]
      exact he
  blank i hpos hi hempty := by
    rw [h.lastIndex_eq]
    rw [h.count_eq] at hi
    by_contra hne'
    have hlt : i < newIndex d := by omega
    rw [h.old i hlt] at hempty
    have hle := newIndex_le hd.forest
    have hlast := hd.blank i hpos (by omega) hempty
    -- then the last element is used again
    have hre : Reuses d := by
      rw [lastIndex] at hlast
      exact ⟨by omega, by rw [THtmlParser.last, lastIndex, ← hlast]; exact hempty⟩
    rw [newIndex, if_pos hre] at hne'
    exact hne' hlast

end Built

/-- An element whose start tag is complete in itself. -/
def isClosedTag (t : StartTag) : Bool :=
  !(t.selfCloseMark.getD []).isEmpty ||
    [lit "img", lit "hr", lit "br", lit "meta"].contains (toLower t.name)

lemma textAlone_fill {t : StartTag} (ht : t.name ≠ []) (e : THtmlElement) :
    TextAlone (fill t e) := fun h => absurd h ht

lemma newIndex_pos (hd : Forest d) : 0 < newIndex d := by
  have := hd.pos
  rw [newIndex]
  split_ifs with h
  · exact Nat.sub_pos_of_lt h.1
  · exact this

lemma Built.append (hd : Built d) (hp : p < d.elementCount) (hne : p ≠ newIndex d) :
    Inserted d (d.appendNewElement p) p (-1) {} :=
  have h := HtmlForest.inserted hd.forest hp hne (-1)
  ⟨h.count_eq, h.old, h.new.trans (hd.newElement_eq p)⟩

lemma not_reuses {e : THtmlElement} {index : ℤ} (h : Inserted d d' p index e) (he : ¬e.isEmpty) :
    ¬Reuses d' := by
  rintro ⟨-, hempty⟩
  rw [THtmlParser.last, h.lastIndex_eq, h.new] at hempty
  exact he hempty

lemma isElementClosed_fill {t : StartTag} (hd : Forest d) (h : Inserted d d' p (-1) (fill t {})) :
    d'.isElementClosed d'.lastIndex = isClosedTag t := by
  have hne : newIndex d ≠ 0 := (newIndex_pos hd).ne'
  rw [h.lastIndex_eq, isElementClosed, h.new, isClosedTag]
  simp [relink, fill, hne]

/-- **What `startElement` does**: one element, and an empty one behind it if that is closed. -/
lemma startElement_spec (hd : Built d) (hp : p < d.elementCount)
    (htag : p = 0 ∨ (d.elements p).tag ≠ []) {t : StartTag} (ht : t.name ≠ []) :
    ∃ d₁, Inserted d d₁ p (-1) (fill t {}) ∧ Built d₁ ∧ ¬Reuses d₁ ∧
      if isClosedTag t then Inserted d₁ (startElement d t p) p (-1) {}
      else startElement d t p = d₁ := by
  have hne := ne_newIndex hp htag
  have hadd := hd.append hp hne
  have hins : Inserted d ((d.appendNewElement p).modify (newIndex d) (fill t)) p (-1)
      (fill t {}) := hadd.modify rfl
  have hbuilt := hd.inserted hins hp hne (textAlone_fill ht _)
  have hre : ¬Reuses ((d.appendNewElement p).modify (newIndex d) (fill t)) :=
    not_reuses hins fun h => ht (isEmpty_iff.mp h).1
  refine ⟨_, hins, hbuilt, hre, ?_⟩
  have hclosed := isElementClosed_fill hd.forest hins
  have hparent : (((d.appendNewElement p).modify (newIndex d) (fill t)).elements
      (newIndex d)).parent = p := by rw [hins.new]; rfl
  rw [startElement, hadd.lastIndex_eq]
  simp only [hclosed]
  split_ifs
  · rw [hins.lastIndex_eq, hparent]
    refine hbuilt.append ?_ ?_
    · have := newIndex_le hd.forest
      have := hins.count_eq
      omega
    · rw [newIndex, if_neg hre]
      have := newIndex_le hd.forest
      have := hins.count_eq
      omega
  · rfl

/-- **What `endElement` does**: the element is closed, with an empty one behind it. -/
lemma endElement_spec (hd : Built d) (hpos : 0 < i) (hi : i < d.elementCount)
    (htag : (d.elements i).tag ≠ []) (tag : QString) :
    Built (d.modify i fun e => { e with tagClosed := true }) ∧
      Inserted (d.modify i fun e => { e with tagClosed := true }) (endElement d tag i)
        (d.elements i).parent (-1) {} := by
  have hbuilt : Built (d.modify i fun e => { e with tagClosed := true }) :=
    hd.modify (fun _ => rfl) (fun _ => rfl) (fun _ h => h) fun h => absurd h htag
  have hlt := hd.forest.parent_lt i hpos hi
  refine ⟨hbuilt, ?_⟩
  rw [endElement, if_pos hpos]
  refine hbuilt.append (hlt.trans hi) ?_
  have := lt_newIndex hbuilt.forest hi (ne_newIndex hi (.inr ?_))
  · omega
  · rw [elements_modify_self]
    exact htag

lemma Built.startElement (hd : Built d) (hp : p < d.elementCount)
    (htag : p = 0 ∨ (d.elements p).tag ≠ []) {t : StartTag} (ht : t.name ≠ []) :
    Built (startElement d t p) := by
  obtain ⟨d₁, hins, hbuilt, hre, h⟩ := startElement_spec hd hp htag ht
  split_ifs at h
  · have hlt : p < d₁.elementCount := by
      have := newIndex_le hd.forest
      have := hins.count_eq
      omega
    refine hbuilt.inserted h hlt ?_ fun _ => ⟨rfl, rfl, rfl⟩
    rw [newIndex, if_neg hre]
    exact hlt.ne
  · rw [h]
    exact hbuilt

lemma Built.appendText (hd : Built d) (w : QString) : Built (appendText d w) :=
  hd.modify (fun _ => rfl) (fun _ => rfl)
    (fun e h => by
      obtain ⟨htag, htext, hattr⟩ := isEmpty_iff.mp h
      exact isEmpty_iff.mpr ⟨htag, (List.append_eq_nil_iff.mp htext).1, hattr⟩)
    (hd.textAlone _ hd.forest.lastIndex_lt)

lemma Built.endElement (hd : Built d) (hi : i < d.elementCount)
    (htag : 0 < i → (d.elements i).tag ≠ []) (tag : QString) : Built (endElement d tag i) := by
  rcases Nat.eq_zero_or_pos i with rfl | hpos
  · rw [HtmlParser.endElement, if_neg (lt_irrefl 0)]
    exact hd.appendText _
  · obtain ⟨hbuilt, hins⟩ := endElement_spec hd hpos hi (htag hpos) tag
    have hlt := hd.forest.parent_lt i hpos hi
    refine hbuilt.inserted hins (hlt.trans hi) ?_ fun _ => ⟨rfl, rfl, rfl⟩
    have := lt_newIndex hbuilt.forest hi (ne_newIndex hi (.inr ?_))
    · omega
    · rw [elements_modify_self]
      exact htag hpos

/-! ### What `parseTag` does -/

lemma not_isStartTag_slash (r : QString) : isStartTag ('/' :: r) = false := rfl

lemma isStartTag_or (h : isTag ('<' :: r)) : isStartTag r ∨ ∃ u, r = '/' :: u ∧ isEndTag r := by
  rw [isTag, Bool.and_eq_true, Bool.or_eq_true] at h
  refine h.2.imp_right fun hend => ?_
  have hhead : (r.head? = some '/') := by
    rw [List.drop_one, List.tail_cons, isEndTag, Bool.and_eq_true, Bool.and_eq_true,
      decide_eq_true_eq] at hend
    exact hend.1.1
  obtain ⟨u, rfl⟩ := List.head?_eq_some_iff.mp hhead
  exact ⟨u, rfl, hend⟩

lemma tag_ne_of_isOpen (h : isOpen d i) : (d.elements i).tag ≠ [] := by
  rw [isOpen, Bool.and_eq_true, Bool.not_eq_true', List.isEmpty_eq_false_iff] at h
  exact h.1

lemma tag_ne_of_isOpened {tag : QString} (h : isOpened d tag i) : (d.elements i).tag ≠ [] := by
  rw [isOpened, Bool.and_eq_true, Bool.and_eq_true, Bool.not_eq_true', List.isEmpty_eq_false_iff,
    decide_eq_true_eq] at h
  intro hnil
  rw [hnil] at h
  exact h.1.1 (List.map_eq_nil_iff.mp h.1.2.symm)

lemma name_ne (hs : isStartTag r) : r.takeWhile isAlnum ≠ [] := (startTag_name hs).2.1

lemma parseTag_start (txt : QString) (st : State) (hd : Built st.doc) (hs : isStartTag st.rest) :
    ∃ t p, parseTag txt st = .ok ⟨startElement st.doc t p, t.rest, st.asserted || !t.complete⟩ ∧
      readStartTag txt st.rest = .ok t ∧ Nearest st.doc (isOpen st.doc) st.doc.lastIndex p := by
  obtain ⟨t, -, hread, -⟩ := readStartTag_ok txt hs
  have hlast := hd.forest.lastIndex_lt
  obtain ⟨p, hp, hnearest⟩ := enclosing_ok (isOpen st.doc) hd.forest hlast hlast
  refine ⟨t, p, ?_, hread, hnearest⟩
  obtain ⟨c, r, hr⟩ : ∃ c r, st.rest = c :: r := by
    cases h : st.rest with
    | nil => rw [h] at hs; exact absurd hs (by decide)
    | cons c r => exact ⟨c, r, rfl⟩
  have hc : c ≠ '/' := by
    rintro rfl
    rw [hr, not_isStartTag_slash] at hs
    exact absurd hs (by decide)
  rw [parseTag, hp, hread, hr]
  simp [charAt, Except.bind, Except.map, hc]

lemma parseTag_end (txt : QString) (st : State) {u : QString} (hd : Built st.doc)
    (hu : st.rest = '/' :: u) : ∃ i, parseTag txt st =
        .ok ⟨endElement st.doc (readEndTag st.rest).1 i, (readEndTag st.rest).2, st.asserted⟩ ∧
      Nearest st.doc (isOpened st.doc (readEndTag st.rest).1) st.doc.lastIndex i := by
  have hlast := hd.forest.lastIndex_lt
  obtain ⟨i, hi, hnearest⟩ :=
    enclosing_ok (isOpened st.doc (readEndTag st.rest).1) hd.forest hlast hlast
  refine ⟨i, ?_, hnearest⟩
  rw [parseTag, parseCloseTag, hi, hu]
  rfl

lemma built_start {t : StartTag} (hd : Built d) (ht : t.name ≠ [])
    (h : Nearest d (isOpen d) d.lastIndex p) : Built (startElement d t p) := by
  have hlast := hd.forest.lastIndex_lt
  refine hd.startElement ((h.le hd.forest hlast).trans_lt hlast) ?_ ht
  rcases Nat.eq_zero_or_pos p with hp | hp
  · exact .inl hp
  · exact .inr (tag_ne_of_isOpen (h.stops hp))

lemma built_end {tag : QString} (hd : Built d) (h : Nearest d (isOpened d tag) d.lastIndex i) :
    Built (endElement d tag i) :=
  have hlast := hd.forest.lastIndex_lt
  hd.endElement ((h.le hd.forest hlast).trans_lt hlast)
    (fun hi => tag_ne_of_isOpened (h.stops hi)) tag

/-! ### The whole text -/

lemma readEndTag_length (s : QString) : (readEndTag s).2.length ≤ s.length := by
  have h₁ := (parseWord_suffix (skipWhiteSpace (s.drop 1))).length_le
  have h₂ := (skipWhiteSpace_suffix (s.drop 1)).length_le
  have h₃ := (List.dropWhile_suffix (l := (parseWord (skipWhiteSpace (s.drop 1))).2)
    fun c => decide (c ≠ '>')).length_le
  simp only [readEndTag, List.length_drop] at *
  omega

lemma tagEnd_length (q : Option Char) (s : QString) : (tagEnd q s).length ≤ s.length := by
  induction s generalizing q with
  | nil => simp [tagEnd]
  | cons c s ih =>
    rcases q with _ | q
    · rw [tagEnd]
      split_ifs
      · simp
      · have h := (List.dropWhile_suffix (l := s) fun c => decide (c ≠ '>')).length_le
        rw [List.length_drop, List.length_cons]
        omega
      · exact (ih _).trans (Nat.le_succ _)
      · exact (ih _).trans (Nat.le_succ _)
    · rw [tagEnd]
      exact (ih _).trans (Nat.le_succ _)

/-- The start tags of a text, each by what is behind its `<`. -/
def startTags : QString → List QString
  | [] => []
  | c :: r =>
    if isTag (c :: r) then
      if isEndTag r then startTags (readEndTag r).2
      else r :: startTags (tagEnd none (afterName r))
    else startTags r
termination_by s => s.length
decreasing_by
  · exact Nat.lt_succ_of_le (readEndTag_length r)
  · have h₁ := tagEnd_length none (afterName r)
    have h₂ : (afterName r).length ≤ r.length := (List.dropWhile_suffix _).length_le
    rw [List.length_cons]
    omega
  · exact Nat.lt_succ_self _

lemma finished_suffix {txt : QString} {t : StartTag} (h : Finished txt r t) : t.rest <:+ r := by
  cases h with
  | greater => exact List.suffix_cons _ _
  | slash =>
    refine (List.drop_suffix _ _).trans ((List.dropWhile_suffix _).trans (List.suffix_cons _ _))
  | equals => exact List.suffix_rfl

/-- A start tag is complete exactly if each equals sign in it has its place. Then it ends where
`tagEnd` says. -/
lemma complete_iff {txt s : QString} {t : StartTag} (hreads : Reads s t.attributes r)
    (h : Finished txt r t) :
    (t.complete ↔ Placed (tokens s)) ∧ (t.complete → t.rest = tagEnd none s) := by
  rw [hreads.placed, ← hreads.passes tagEnd_passes]
  cases h with
  | greater => simp [tagEnd]
  | slash => simp [tagEnd]
  | equals => simp

lemma startTags_start (h : isTag ('<' :: r)) (hs : isStartTag r) :
    startTags ('<' :: r) = r :: startTags (tagEnd none (afterName r)) := by
  have hend : isEndTag r = false := by
    rw [isStartTag, Bool.and_eq_true] at hs
    obtain ⟨c, u, rfl, hc⟩ := any_head_iff.mp hs.1
    have hne := isAlnum_ne hc (x := '/') (by decide)
    simp [isEndTag, hne]
  rw [startTags, if_pos h, hend]
  rfl

/-- The loop comes to the end of the text, and the assertion holds if it did and the start tags to
come are in order. -/
lemma parseLoop_ok (txt : QString) {fuel : ℕ} (st : State) (hd : Built st.doc)
    (hfuel : st.rest.length ≤ fuel) : ∃ st', parseLoop txt fuel st = .ok st' ∧ Built st'.doc ∧
      (st'.asserted = false ↔
        st.asserted = false ∧ ∀ s ∈ startTags st.rest, Placed (tokens (afterName s))) := by
  induction fuel generalizing st with
  | zero =>
    have hnil : st.rest = [] := List.length_eq_zero_iff.mp (Nat.le_zero.mp hfuel)
    exact ⟨st, by simp [parseLoop, hnil], hd, by simp [hnil, startTags]⟩
  | succ fuel ih =>
    obtain ⟨doc, rest, asserted⟩ := st
    rcases rest with _ | ⟨c, r⟩
    · exact ⟨_, rfl, hd, by simp [startTags]⟩
    have hr : r.length ≤ fuel := Nat.le_of_succ_le_succ hfuel
    rw [parseLoop]
    by_cases htag : isTag (c :: r) = true
    · obtain rfl : c = '<' := by
        rw [isTag, Bool.and_eq_true, decide_eq_true_eq] at htag
        exact Option.some.inj htag.1
      simp only [decide_true, htag, Bool.and_self, if_true]
      rcases isStartTag_or htag with hs | ⟨u, rfl, hend⟩
      · -- a start tag
        obtain ⟨t, p, hparse, hread, hnearest⟩ :=
          parseTag_start txt ⟨doc, r, asserted⟩ hd hs
        obtain ⟨t', r', hread', hname, hreads, hfin⟩ := readStartTag_ok txt hs
        obtain rfl : t = t' := Except.ok.inj (hread.symm.trans hread')
        have hbuilt := built_start hd (hname ▸ name_ne hs) hnearest
        have hlen : t.rest.length ≤ fuel :=
          ((finished_suffix hfin).length_le.trans hreads.suffix.length_le).trans
            ((List.dropWhile_suffix _).length_le.trans hr)
        obtain ⟨st', hok, hbuilt', hiff⟩ :=
          ih ⟨startElement doc t p, t.rest, asserted || !t.complete⟩ hbuilt hlen
        refine ⟨st', by rw [hparse]; exact hok, hbuilt', hiff.trans ?_⟩
        obtain ⟨hplaced, hrest⟩ := complete_iff hreads hfin
        rw [startTags_start htag hs, List.forall_mem_cons, ← hplaced]
        by_cases hc : t.complete = true
        · simp [hc, hrest hc]
        · simp [hc]
      · -- an end tag
        obtain ⟨i, hparse, hnearest⟩ :=
          parseTag_end txt ⟨doc, '/' :: u, asserted⟩ hd rfl
        obtain ⟨st', hok, hbuilt', hiff⟩ :=
          ih ⟨_, (readEndTag ('/' :: u)).2, asserted⟩ (built_end hd hnearest)
            ((readEndTag_length _).trans hr)
        refine ⟨st', by rw [hparse]; exact hok, hbuilt', hiff.trans ?_⟩
        rw [startTags, if_pos htag, if_pos hend]
    · -- a character of a text
      obtain ⟨st', hok, hbuilt', hiff⟩ :=
        ih ⟨appendText doc [c], r, asserted⟩ (hd.appendText _) hr
      refine ⟨st', by simpa [htag] using hok, hbuilt', hiff.trans ?_⟩
      rw [startTags, if_neg htag]

/-- What the parser builds from any text. -/
theorem parse_built {trimMode : TrimMode} {text : QString} {st : State}
    (h : parse trimMode text = .ok st) : Built st.doc := by
  obtain ⟨st', hok, hbuilt, -⟩ :=
    parseLoop_ok (trimmedText trimMode text) ⟨.new, _, false⟩ built_new le_rfl
  obtain rfl := Except.ok.inj (h.symm.trans hok)
  exact hbuilt

/-- **The parser ends for every text and reads no character outside it.** Its assertion holds
exactly if each equals sign in a start tag that it comes to has its place: behind an attribute name,
and not behind a value. -/
theorem parse_asserts_iff (trimMode : TrimMode) (text : QString) :
    ∃ st, parse trimMode text = .ok st ∧ (st.asserted = false ↔
      ∀ s ∈ startTags (trimmedText trimMode text), Placed (tokens (afterName s))) := by
  obtain ⟨st, hok, -, hiff⟩ := parseLoop_ok (trimmedText trimMode text)
    ⟨.new, trimmedText trimMode text, false⟩ built_new le_rfl
  exact ⟨st, hok, by simpa using hiff⟩

/-- `<a =b>`. -/
theorem parse_equalsFirst :
    ¬∀ trimMode text, ∃ st, parse trimMode text = .ok st ∧ st.asserted = false := by
  intro h
  obtain ⟨st, hok, hst⟩ := h .trimOff (lit "<a =b>")
  have hrun : ((parse .trimOff (lit "<a =b>")).toOption.map State.asserted) = some true := by decide
  rw [hok] at hrun
  simp [Except.toOption, hst] at hrun

end TreeFrog.HtmlParser
