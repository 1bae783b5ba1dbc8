import TreeFrog.RequestHeader

/-!
When the bytes behind a header leave the parsed header alone.

The parser bounds its loop by the end of the header block but looks for the next colon in
the whole text. It stays inside the block as long as a colon is left in it; a rest of the
block without a colon sends it into the body.
-/

namespace TreeFrog.HeaderBlock

open TreeFrog.Bytes TreeFrog.Search TreeFrog.MessageHeader TreeFrog.RequestHeader

/-- A header as it arrives: the empty line occurs in it once, at its end. -/
def IsHeader (h : QByteArray) : Prop := ∃ i, search CRLFCRLF h = some i ∧ i + 4 = h.length

/-- The line at `k` continues the one before it. -/
def Folds (b : QByteArray) (k : ℕ) : Prop := b[k]? = some SP ∨ b[k]? = some HT

/-- From `i` on the block has a colon behind which no new line begins: every line end is
followed by a space, a tab or nothing. -/
def ClosedFrom (blk : QByteArray) (i : ℕ) : Prop :=
  ∃ p ≥ i, blk[p]? = some COLON ∧
    ∀ q > p, blk[q]? = some LF → q + 1 < blk.length → Folds blk (q + 1)

/-- The header block is empty, or its last line belongs to a field. -/
def Closed (blk : QByteArray) : Prop := blk = [] ∨ ClosedFrom blk 0

/-- The header begins with a line end, or has a closed block behind its request line. -/
def HeaderClosed (h : QByteArray) : Prop :=
  h.head? = some LF ∨
    ∃ line blk, LF ∉ line ∧ h = line ++ LF :: (blk ++ CRLFCRLF) ∧ Closed blk

lemma ClosedFrom.mono {blk : QByteArray} {i k : ℕ} (hik : i ≤ k) (h : ClosedFrom blk k) :
    ClosedFrom blk i := by
  obtain ⟨p, hp, hrest⟩ := h
  exact ⟨p, by omega, hrest⟩

/-! ### Where the value of a field ends -/

/-- **The end of a value**: it is behind the start; every line end passed on the way was
folded; and when it lies in the block, it is behind a line end and begins a new line. -/
lemma parseValue_end {header : QByteArray} {headerlen fuel j : ℕ} (v : QByteArray)
    (hf : headerlen < j + fuel) (hl : headerlen ≤ header.length) (hj : j ≤ headerlen) :
    j < (parseValue header headerlen fuel j v).2 ∧
      ((parseValue header headerlen fuel j v).2 < headerlen →
        header[(parseValue header headerlen fuel j v).2 - 1]? = some LF ∧
          ¬ Folds header (parseValue header headerlen fuel j v).2) ∧
      ∀ q, j ≤ q → q + 1 < (parseValue header headerlen fuel j v).2 → header[q]? = some LF →
        Folds header (q + 1) := by
  induction fuel generalizing j v with
  | zero => omega
  | succ fuel ih =>
    set i := (indexOf header [LF] j).getD header.length with hi
    have hji : j ≤ i := by
      rw [hi]
      cases h : indexOf header [LF] j with
      | none => simp only [Option.getD_none]; omega
      | some k => exact (indexOf_singleton_get h).1
    -- no line end lies between the start and the one that was found
    have hfirst : ∀ q, j ≤ q → header[q]? = some LF → i ≤ q := by
      intro q hq hlf
      obtain ⟨k, hk, hidx⟩ := indexOf_singleton_le hq hlf
      rw [hi, hidx]; exact hk
    rw [parseValue, ← hi]
    generalize (if v = [] then v else v ++ [SP]) ++ trimmed ((header.drop j).take (i - j)) = w
    split_ifs with hfold
    · obtain ⟨h1, h2, h3⟩ := ih (j := i + 1) w (by omega) (by omega)
      refine ⟨by omega, h2, fun q hq hlt hlf => ?_⟩
      rcases Nat.lt_or_ge i q with hiq | hiq
      · exact h3 q (by omega) hlt hlf
      · have : q = i := le_antisymm hiq (hfirst q hq hlf)
        subst this
        exact hfold.2
    · refine ⟨by simp only; omega, fun hlt => ⟨?_, fun hF => hfold ⟨hlt, hF⟩⟩,
        fun q hq hlt hlf => ?_⟩
      · rw [show (w, i + 1).2 - 1 = i from rfl]
        cases h : indexOf header [LF] j with
        | none => rw [h] at hi; simp only [Option.getD_none] at hi hlt; omega
        | some k => rw [hi, h]; exact (indexOf_singleton_get h).2
      · have := hfirst q hq hlf
        simp only at hlt
        omega

/-! ### Two texts with the same header block -/

section
variable {blk : QByteArray}

/-- The block, the empty line, and a body. -/
def text (blk b : QByteArray) : QByteArray := blk ++ CRLFCRLF ++ b

lemma text_get {k : ℕ} (hk : k < blk.length) (b : QByteArray) : (text blk b)[k]? = blk[k]? := by
  unfold text
  rw [List.append_assoc, List.getElem?_append_left hk]

lemma text_length (b : QByteArray) : (text blk b).length = blk.length + 4 + b.length := by
  simp [text, CRLFCRLF]; omega

lemma text_slice {i j : ℕ} (h : i + j ≤ blk.length) (b : QByteArray) :
    ((text blk b).drop i).take j = (blk.drop i).take j := by
  unfold text
  rw [List.append_assoc, slice_append h]

lemma text_folds {k : ℕ} (hk : k < blk.length) (b : QByteArray) :
    Folds (text blk b) k ↔ Folds blk k := by
  unfold Folds
  rw [text_get hk]

lemma text_indexOf_LF {j : ℕ} (hj : j ≤ blk.length) :
    ∃ i ≤ blk.length + 1, ∀ b, indexOf (text blk b) [LF] j = some i := by
  have hlf : (blk ++ CRLFCRLF)[blk.length + 1]? = some LF := by
    rw [List.getElem?_append_right (by omega)]; simp [CRLFCRLF]
  obtain ⟨i, hi, hidx⟩ := indexOf_singleton_le (show j ≤ blk.length + 1 by omega) hlf
  exact ⟨i, hi, fun b => indexOf_append (by simp [CRLFCRLF]; omega) hidx b⟩

lemma parseValue_text {j : ℕ} (hj : j ≤ blk.length) (fuel : ℕ) (v b₁ b₂ : QByteArray) :
    parseValue (text blk b₁) blk.length fuel j v =
      parseValue (text blk b₂) blk.length fuel j v := by
  induction fuel generalizing j v with
  | zero => rfl
  | succ fuel ih =>
    obtain ⟨i, hi, hidx⟩ := text_indexOf_LF hj
    have hslice : ∀ b, ((text blk b).drop j).take (i - j) =
        ((blk ++ CRLFCRLF).drop j).take (i - j) := by
      intro b
      exact slice_append (by simp [CRLFCRLF]; omega)
    have hcond : ∀ b, (i + 1 < blk.length ∧
        ((text blk b)[i + 1]? = some SP ∨ (text blk b)[i + 1]? = some HT)) ↔
        (i + 1 < blk.length ∧ Folds blk (i + 1)) := fun b =>
      and_congr_right fun h => text_folds h b
    rw [parseValue, parseValue, hidx b₁, hidx b₂, Option.getD_some, Option.getD_some, hslice b₁,
      hslice b₂]
    generalize (if v = [] then v else v ++ [SP]) ++
      trimmed (((blk ++ CRLFCRLF).drop j).take (i - j)) = w
    by_cases h : i + 1 < blk.length ∧ Folds blk (i + 1)
    · rw [if_pos ((hcond b₁).mpr h), if_pos ((hcond b₂).mpr h)]
      exact ih (by omega) w
    · rw [if_neg (mt (hcond b₁).mp h), if_neg (mt (hcond b₂).mp h)]

lemma value_end {j : ℕ} (hj : j < blk.length) (b : QByteArray) :
    let e := (parseValue (text blk b) blk.length (blk.length + 1) (j + 1) []).2
    j + 1 < e ∧ (e < blk.length → blk[e - 1]? = some LF ∧ ¬ Folds blk e) ∧
      ∀ q, j < q → q + 1 < e → q + 1 < blk.length → blk[q]? = some LF → Folds blk (q + 1) := by
  intro e
  have hlen : blk.length ≤ (text blk b).length := by rw [text_length]; omega
  obtain ⟨h1, h2, h3⟩ := parseValue_end [] (show blk.length < j + 1 + (blk.length + 1) by omega)
    hlen (show j + 1 ≤ blk.length by omega)
  refine ⟨h1, fun he => ?_, fun q hq hqe hqb hlf => ?_⟩
  · obtain ⟨ha, hb⟩ := h2 he
    rw [text_get (show e - 1 < blk.length by omega)] at ha
    exact ⟨ha, fun hF => hb ((text_folds he b).mpr hF)⟩
  · rw [← text_folds hqb b]
    exact h3 q (by omega) hqe (by rw [text_get (by omega)]; exact hlf)

/-- **A closed rest of the block is read alike whatever the body.** -/
lemma parseLoop_closed {i : ℕ} (h : ClosedFrom blk i ∨ blk.length ≤ i) (fuel : ℕ)
    (ps : List RawHeaderPair) (b₁ b₂ : QByteArray) :
    parseLoop (text blk b₁) blk.length fuel i ps =
      parseLoop (text blk b₂) blk.length fuel i ps := by
  induction fuel generalizing i ps with
  | zero => rfl
  | succ fuel ih =>
    by_cases hi : i < blk.length
    swap
    · rw [parseLoop_done (by omega), parseLoop_done (by omega)]
    obtain ⟨p, hp, hcolon, hclosed⟩ := h.resolve_right (by omega)
    have hplt := lt_length_of_getElem? hcolon
    have hcolon' : (blk ++ CRLFCRLF)[p]? = some COLON := by
      rw [List.getElem?_append_left hplt]; exact hcolon
    obtain ⟨j, hj, hidx⟩ := indexOf_singleton_le hp hcolon'
    have hidx' : ∀ b, indexOf (text blk b) [COLON] i = some j := fun b =>
      indexOf_append (by simp; omega) hidx b
    have hij := (indexOf_singleton_get hidx).1
    have hslice : ∀ b, ((text blk b).drop i).take (j - i) = (blk.drop i).take (j - i) :=
      text_slice (by omega)
    have hval := parseValue_text (show j + 1 ≤ blk.length by omega) (blk.length + 1) [] b₁ b₂
    obtain ⟨he1, he2, -⟩ := value_end (show j < blk.length by omega) b₂
    rw [parseLoop, parseLoop, if_pos hi, if_pos hi, hidx', hidx']
    simp only [hslice, hval]
    refine ih ?_ _
    -- behind the value the same colon is still ahead, or the block is over
    by_contra hcon
    simp only [not_or, not_le] at hcon
    obtain ⟨hnc, hlt⟩ := hcon
    obtain ⟨hlf, hnf⟩ := he2 hlt
    rcases Nat.lt_or_ge p (parseValue (text blk b₂) blk.length (blk.length + 1) (j + 1) []).2
      with hpe | hpe
    · have hne : p ≠ (parseValue (text blk b₂) blk.length (blk.length + 1) (j + 1) []).2 - 1 := by
        intro heq
        rw [← heq, hcolon] at hlf
        exact absurd hlf (by decide)
      have hbehind :
          (parseValue (text blk b₂) blk.length (blk.length + 1) (j + 1) []).2 - 1 > p := by
        omega
      have := hclosed _ hbehind hlf (by omega)
      rw [Nat.sub_add_cancel (by omega)] at this
      exact hnf this
    · exact hnc ⟨p, hpe, hcolon, hclosed⟩

/-- **An open rest of the block reads a field out of the body**: with a colon in the body
there are more fields than without a body. -/
lemma parseLoop_open {i fuel : ℕ} (h : ¬ ClosedFrom blk i) (hi : i < blk.length)
    (hf : blk.length < i + fuel) (ps : List RawHeaderPair) :
    parseLoop (text blk []) blk.length fuel i ps ≠
      parseLoop (text blk [COLON]) blk.length fuel i ps := by
  induction fuel generalizing i ps with
  | zero => omega
  | succ fuel ih =>
    rw [parseLoop, parseLoop, if_pos hi, if_pos hi]
    by_cases hc : COLON ∈ blk.drop i
    · obtain ⟨k, hk⟩ := List.mem_iff_getElem?.mp hc
      rw [List.getElem?_drop] at hk
      have hklt := lt_length_of_getElem? hk
      have hk' : (blk ++ CRLFCRLF)[i + k]? = some COLON := by
        rw [List.getElem?_append_left hklt]; exact hk
      obtain ⟨j, hj, hidx⟩ := indexOf_singleton_le (show i ≤ i + k by omega) hk'
      have hidx' : ∀ b, indexOf (text blk b) [COLON] i = some j := fun b =>
        indexOf_append (by simp; omega) hidx b
      obtain ⟨hij, hjc⟩ := indexOf_singleton_get hidx
      have hjlt : j < blk.length := by omega
      rw [List.getElem?_append_left hjlt] at hjc
      have hval := parseValue_text (show j + 1 ≤ blk.length by omega) (blk.length + 1) []
        [] [COLON]
      have hslice : ∀ b, ((text blk b).drop i).take (j - i) = (blk.drop i).take (j - i) :=
        text_slice (by omega)
      obtain ⟨he1, he2, he3⟩ := value_end hjlt [COLON]
      simp only [hidx', hslice, hval]
      refine ih ?_ ?_ (by omega) _
      · exact fun hcl => h (hcl.mono (by omega))
      · -- a value that reaches the end of the block would close it
        by_contra hge
        refine h ⟨j, hij, hjc, fun q hq hlf hqb => ?_⟩
        exact he3 q (by omega) (by omega) hqb hlf
    · have h1 : indexOf (text blk []) [COLON] i = none := by
        rw [indexOf_singleton_eq_none_iff]
        unfold text
        rw [List.append_nil, List.drop_append_of_le_length (by omega), List.mem_append]
        exact not_or.mpr ⟨hc, by decide⟩
      have h2 : ∃ j, indexOf (text blk [COLON]) [COLON] i = some j := by
        have hlast : (text blk [COLON])[blk.length + 4]? = some COLON := by
          unfold text
          rw [List.append_assoc, List.getElem?_append_right (by omega)]
          simp [CRLFCRLF]
        obtain ⟨j, -, hj⟩ := indexOf_singleton_le (show i ≤ blk.length + 4 by omega) hlast
        exact ⟨j, hj⟩
      obtain ⟨j, hj⟩ := h2
      rw [h1, hj]
      simp only
      intro heq
      have := (prefix_le_parseLoop (text blk [COLON]) blk.length fuel
        (parseValue (text blk [COLON]) blk.length (blk.length + 1) (j + 1) []).2
        (ps ++ [(trimmed (((text blk [COLON]).drop i).take (j - i)),
          some (parseValue (text blk [COLON]) blk.length (blk.length + 1) (j + 1)
            []).1)])).length_le
      rw [← heq, List.length_append, List.length_singleton] at this
      omega

lemma parse_text (hb : search CRLFCRLF (blk ++ CRLFCRLF) = some blk.length) (b : QByteArray) :
    TInternetMessageHeader.parse {} (text blk b) =
      ⟨parseLoop (text blk b) blk.length (blk.length + 1) 0 []⟩ := by
  have hlen : indexOf (text blk b) CRLFCRLF 0 = some blk.length := by
    rw [indexOf_zero]
    exact search_append hb b
  unfold TInternetMessageHeader.parse
  rw [hlen]
  rfl

/-- **The fields of a block do not depend on the body exactly when the block is closed.** -/
lemma parse_text_iff (hb : search CRLFCRLF (blk ++ CRLFCRLF) = some blk.length) :
    (∀ b₁ b₂, TInternetMessageHeader.parse {} (text blk b₁) =
      TInternetMessageHeader.parse {} (text blk b₂)) ↔ Closed blk := by
  constructor
  · intro h
    have heq := h [] [COLON]
    rw [parse_text hb, parse_text hb, TInternetMessageHeader.mk.injEq] at heq
    by_contra hc
    obtain ⟨hne, hopen⟩ := not_or.mp hc
    exact parseLoop_open hopen (List.length_pos_iff.mpr hne) (by omega) [] heq
  · intro hc b₁ b₂
    rw [parse_text hb, parse_text hb, TInternetMessageHeader.mk.injEq]
    refine parseLoop_closed ?_ _ _ b₁ b₂
    rcases hc with rfl | hc
    · exact Or.inr le_rfl
    · exact Or.inl hc

end

/-! ### The whole header -/

lemma split_unique {l l' r r' : QByteArray} (hl : LF ∉ l) (hl' : LF ∉ l')
    (h : l ++ LF :: r = l' ++ LF :: r') : l = l' ∧ r = r' := by
  have hlen : some l.length = some l'.length := by
    rw [← search_singleton (t := r) hl, h, search_singleton hl']
  obtain ⟨h1, h2⟩ := List.append_inj h (Option.some.inj hlen)
  exact ⟨h1, (List.cons.inj h2).2⟩

/-- Behind its first line a header has the rest of the empty line, or a block and the empty
line. -/
lemma IsHeader.split {h : QByteArray} (hh : IsHeader h) :
    ∃ line rest, LF ∉ line ∧ h = line ++ LF :: rest ∧
      (rest = CRLF ∨ ∃ blk, rest = blk ++ CRLFCRLF ∧
        search CRLFCRLF (blk ++ CRLFCRLF) = some blk.length) := by
  obtain ⟨e, he, hlen⟩ := hh
  obtain ⟨-, ⟨t, ht⟩, hmin⟩ := search_eq_some_iff.mp he
  -- the empty line ends the header
  have htail : h.drop e = CRLFCRLF := by
    have : t = [] := by
      have := congrArg List.length ht
      rw [List.length_append, List.length_drop] at this
      simp only [CRLFCRLF, List.length_cons, List.length_nil] at this
      exact List.length_eq_zero_iff.mp (by omega)
    rw [← ht, this, List.append_nil]
  have hget : ∀ k, h[e + k]? = CRLFCRLF[k]? := fun k => by rw [← htail, List.getElem?_drop]
  have hlf : h[e + 1]? = some LF := hget 1
  obtain ⟨i, hi, hidx⟩ := indexOf_singleton_le (Nat.zero_le (e + 1)) hlf
  rw [indexOf_zero] at hidx
  obtain ⟨hline, hsplit⟩ := search_singleton_split hidx
  refine ⟨h.take i, h.drop (i + 1), hline, hsplit, ?_⟩
  rcases Nat.lt_or_ge i e with hie | hie
  · right
    -- the first line ends before the empty line
    have hrest : h.drop (i + 1) = (h.drop (i + 1)).take (e - (i + 1)) ++ CRLFCRLF := by
      have := List.take_append_drop (e - (i + 1)) (h.drop (i + 1))
      rw [List.drop_drop, show i + 1 + (e - (i + 1)) = e by omega, htail] at this
      exact this.symm
    refine ⟨(h.drop (i + 1)).take (e - (i + 1)), hrest, ?_⟩
    rw [← hrest]
    have hl : ((h.drop (i + 1)).take (e - (i + 1))).length = e - (i + 1) := by
      rw [List.length_take, List.length_drop]; omega
    rw [hl, search_eq_some_iff]
    refine ⟨by rw [List.length_drop]; omega, ?_, fun j hj hp => ?_⟩
    · rw [List.drop_drop, show i + 1 + (e - (i + 1)) = e by omega, htail]
    · rw [List.drop_drop] at hp
      exact hmin _ (by omega) hp
  · left
    -- the first line is the one before the empty line: nothing else is behind it
    have hne : i ≠ e := by
      rintro rfl
      have h1 : h[i]? = some LF := by
        rw [hsplit, List.getElem?_append_right (by rw [List.length_take]; omega),
          List.length_take, show i - min i h.length = 0 by omega]
        rfl
      have h2 := hget 0
      rw [Nat.add_zero, h1] at h2
      exact absurd h2 (by decide)
    rw [show i + 1 = e + 2 by omega, ← List.drop_drop, htail]
    rfl

lemma ofBytes_append {line rest : QByteArray} (hne : line ≠ []) (hl : LF ∉ line) :
    (∀ b₁ b₂, THttpRequestHeader.ofBytes (line ++ LF :: rest ++ b₁) =
      THttpRequestHeader.ofBytes (line ++ LF :: rest ++ b₂)) ↔
    ∀ b₁ b₂, TInternetMessageHeader.parse {} (rest ++ b₁) =
      TInternetMessageHeader.parse {} (rest ++ b₂) := by
  have hof : ∀ b, THttpRequestHeader.ofBytes (line ++ LF :: rest ++ b) =
      THttpRequestHeader.readLine
        { toTInternetMessageHeader := TInternetMessageHeader.parse {} (rest ++ b) }
        (trimmed line) := fun b => by
    rw [List.append_assoc, List.cons_append]
    exact THttpRequestHeader.ofBytes_of_line hne hl
  constructor
  · intro h b₁ b₂
    have := congrArg THttpRequestHeader.toTInternetMessageHeader (h b₁ b₂)
    rwa [hof, hof, THttpRequestHeader.readLine_fields, THttpRequestHeader.readLine_fields] at this
  · intro h b₁ b₂
    rw [hof, hof, h b₁ b₂]

/-- **When the bytes behind a header do not matter**: the parsed header is the same whatever
follows exactly when the header is closed. -/
theorem ofBytes_append_iff (h : QByteArray) (hh : IsHeader h) :
    (∀ b₁ b₂, THttpRequestHeader.ofBytes (h ++ b₁) = THttpRequestHeader.ofBytes (h ++ b₂)) ↔
      HeaderClosed h := by
  obtain ⟨line, rest, hl, rfl, hrest⟩ := hh.split
  by_cases hne : line = []
  · subst hne
    exact ⟨fun _ => Or.inl rfl, fun _ _ _ => rfl⟩
  rw [ofBytes_append hne hl]
  have hhead : (line ++ LF :: rest).head? ≠ some LF := by
    rw [List.head?_append_of_ne_nil _ hne]
    exact fun h => hl (List.mem_of_head? h)
  -- the block of a header is determined by it
  have hclosed : HeaderClosed (line ++ LF :: rest) ↔
      ∃ blk, rest = blk ++ CRLFCRLF ∧ Closed blk := by
    constructor
    · rintro (h | ⟨line', blk, hl', heq, hc⟩)
      · exact absurd h hhead
      · exact ⟨blk, (split_unique hl hl' heq).2, hc⟩
    · rintro ⟨blk, rfl, hc⟩
      exact Or.inr ⟨line, blk, hl, rfl, hc⟩
  rw [hclosed]
  rcases hrest with rfl | ⟨blk, rfl, hb⟩
  · -- no header lines: the line end left over is itself taken for a header block
    refine iff_of_false (fun h => absurd (h [] [COLON]) (by decide)) ?_
    rintro ⟨blk, heq, -⟩
    have := congrArg List.length heq
    simp [CRLF, CRLFCRLF] at this
  · rw [show (∃ blk', blk ++ CRLFCRLF = blk' ++ CRLFCRLF ∧ Closed blk') ↔ Closed blk by simp]
    exact parse_text_iff hb

/-- A header with one field: nothing behind it changes what is read. -/
theorem ofBytes_append_iff_host :
    (∀ b₁ b₂, THttpRequestHeader.ofBytes (ascii "GET / HTTP/1.1\r\nHost: a\r\n\r\n" ++ b₁) =
      THttpRequestHeader.ofBytes (ascii "GET / HTTP/1.1\r\nHost: a\r\n\r\n" ++ b₂)) ↔
      HeaderClosed (ascii "GET / HTTP/1.1\r\nHost: a\r\n\r\n") :=
  ofBytes_append_iff _ ⟨23, by decide, by decide⟩

/-- A request without header lines takes the first line of its body for one. -/
theorem ofBytes_append_differs :
    ¬ ∀ h, IsHeader h → ∀ b₁ b₂,
      THttpRequestHeader.ofBytes (h ++ b₁) = THttpRequestHeader.ofBytes (h ++ b₂) := fun h =>
  absurd (h (ascii "GET / HTTP/1.1\r\n\r\n") ⟨14, by decide, by decide⟩ [] (ascii "X: y\r\n\r\n"))
    (by decide)

end TreeFrog.HeaderBlock
