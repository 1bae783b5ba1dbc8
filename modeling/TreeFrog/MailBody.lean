import TreeFrog.SmtpMailer

/-!
The body of a `TMailMessage`, stored with CRLF at the line ends and read back with LF. A line end
at the very start is stored as it is.
-/

namespace TreeFrog.MailBody

open TreeFrog.Bytes TreeFrog.Search TreeFrog.SmtpMailer

abbrev QString := List Char

/-- The codec of a message. -/
structure QTextCodec where
  fromUnicode : QString → QByteArray
  toUnicode : QByteArray → QString

/-- `ba.replace("\r\n", "\n")` -/
def replaceCRLF : QByteArray → QByteArray
  | [] => []
  | [c] => [c]
  | c :: d :: ba => if c = CR ∧ d = LF then LF :: replaceCRLF ba else c :: replaceCRLF (d :: ba)

/-- `TMailMessage::body`. -/
def body (textCodec : QTextCodec) (m : TMailMessage) : QString :=
  textCodec.toUnicode (if contains m.mailBody CRLF then replaceCRLF m.mailBody else m.mailBody)

/-- `TMailMessage::setBody`, with the codec of the message. -/
def setBody (textCodec : QTextCodec) (m : TMailMessage) (body : QString) : TMailMessage :=
  m.setBody textCodec.fromUnicode body

/-- Every LF has a CR before it, and every CR an LF behind it. -/
structure LineEnds (b : QByteArray) : Prop where
  lf : ∀ i, b[i]? = some LF → 0 < i ∧ b[i - 1]? = some CR
  cr : ∀ i, b[i]? = some CR → b[i + 1]? = some LF

/-- The codec keeps the text and maps CR and LF to themselves: there is no CR in the encoded text
that is not in the text, and the encoded text starts with LF if the text does. -/
structure Keeps (textCodec : QTextCodec) (t : QString) : Prop where
  inverse : textCodec.toUnicode (textCodec.fromUnicode t) = t
  cr : CR ∈ textCodec.fromUnicode t → '\r' ∈ t
  lf : (textCodec.fromUnicode t).head? = some LF ↔ t.head? = some '\n'

/-! ### The loop of `setBody` -/

variable {b : QByteArray} {c : UInt8} {t : QString} {textCodec : QTextCodec}

/-- Each LF with a CR before it. -/
def lines (b : QByteArray) : QByteArray := b.flatMap fun c => if c = LF then CRLF else [c]

lemma lines_cons (c : UInt8) (b : QByteArray) :
    lines (c :: b) = (if c = LF then CRLF else [c]) ++ lines b := List.flatMap_cons ..

lemma bodyLoop_some (hc : c ≠ CR) (hb : CR ∉ b) : bodyLoop (some c) b = lines b := by
  induction b generalizing c with
  | nil => rfl
  | cons d b ih =>
    rw [List.mem_cons, not_or] at hb
    rw [bodyLoop, lines_cons, ih (Ne.symm hb.1) hb.2]
    simp [hc]

lemma bodyLoop_none (hb : CR ∉ c :: b) : bodyLoop none (c :: b) = c :: lines b := by
  rw [List.mem_cons, not_or] at hb
  rw [bodyLoop, bodyLoop_some (Ne.symm hb.1) hb.2, if_neg (by simp), List.singleton_append]

namespace LineEnds

lemma nil : LineEnds [] := ⟨by simp, by simp⟩

lemma cons (h : LineEnds b) (hcr : c ≠ CR) (hlf : c ≠ LF) : LineEnds (c :: b) where
  lf i hi := by
    rcases i with _ | i
    · rw [List.getElem?_cons_zero] at hi
      exact absurd (Option.some.inj hi) hlf
    · rw [List.getElem?_cons_succ] at hi
      obtain ⟨hpos, hbefore⟩ := h.lf i hi
      obtain ⟨j, rfl⟩ := Nat.exists_eq_succ_of_ne_zero hpos.ne'
      exact ⟨Nat.succ_pos _, hbefore⟩
  cr i hi := by
    rcases i with _ | i
    · rw [List.getElem?_cons_zero] at hi
      exact absurd (Option.some.inj hi) hcr
    · exact h.cr i hi

lemma crlf (h : LineEnds b) : LineEnds (CRLF ++ b) where
  lf i hi := by
    rcases i with _ | _ | i
    · have heq : CR = LF := Option.some.inj hi
      exact absurd heq (by decide)
    · exact ⟨Nat.one_pos, rfl⟩
    · obtain ⟨hpos, hbefore⟩ := h.lf i hi
      obtain ⟨j, rfl⟩ := Nat.exists_eq_succ_of_ne_zero hpos.ne'
      exact ⟨Nat.succ_pos _, hbefore⟩
  cr i hi := by
    rcases i with _ | _ | i
    · rfl
    · have heq : LF = CR := Option.some.inj hi
      exact absurd heq (by decide)
    · exact h.cr i hi

lemma lines (hb : CR ∉ b) : LineEnds (lines b) := by
  induction b with
  | nil => exact nil
  | cons c b ih =>
    rw [List.mem_cons, not_or] at hb
    rw [lines_cons]
    split_ifs with hlf
    · exact (ih hb.2).crlf
    · exact (ih hb.2).cons (Ne.symm hb.1) hlf

end LineEnds

/-- What is stored has its line ends unless the first one is at the start. -/
lemma lineEnds_bodyLoop (hb : CR ∉ b) : LineEnds (bodyLoop none b) ↔ b.head? ≠ some LF := by
  rcases b with _ | ⟨c, b⟩
  · exact iff_of_true .nil (by simp)
  rw [bodyLoop_none hb]
  rw [List.mem_cons, not_or] at hb
  constructor
  · intro h hhead
    have hfirst := (h.lf 0 hhead).1
    exact absurd hfirst (lt_irrefl 0)
  · intro hhead
    exact (LineEnds.lines hb.2).cons (Ne.symm hb.1) fun hlf => hhead (congrArg some hlf)

/-! ### The body read back -/

lemma replaceCRLF_crlf (b : QByteArray) : replaceCRLF (CRLF ++ b) = LF :: replaceCRLF b := rfl

lemma replaceCRLF_cons (hc : c ≠ CR) (b : QByteArray) :
    replaceCRLF (c :: b) = c :: replaceCRLF b := by
  rcases b with _ | ⟨d, b⟩
  · rfl
  · rw [replaceCRLF, if_neg fun h => hc h.1]

lemma replaceCRLF_lines (hb : CR ∉ b) : replaceCRLF (lines b) = b := by
  induction b with
  | nil => rfl
  | cons c b ih =>
    rw [List.mem_cons, not_or] at hb
    rw [lines_cons]
    split_ifs with hlf
    · rw [replaceCRLF_crlf, ih hb.2, hlf]
    · rw [List.singleton_append, replaceCRLF_cons (Ne.symm hb.1), ih hb.2]

lemma replaceCRLF_bodyLoop (hb : CR ∉ b) : replaceCRLF (bodyLoop none b) = b := by
  rcases b with _ | ⟨c, b⟩
  · rfl
  rw [bodyLoop_none hb]
  rw [List.mem_cons, not_or] at hb
  rw [replaceCRLF_cons (Ne.symm hb.1), replaceCRLF_lines hb.2]

lemma replaceCRLF_of_not (h : ¬ CRLF <:+: b) : replaceCRLF b = b := by
  induction b using replaceCRLF.induct with
  | case1 => rfl
  | case2 => rfl
  | case3 c d b hcd =>
    obtain ⟨rfl, rfl⟩ := hcd
    exact absurd ⟨[], b, rfl⟩ h
  | case4 c d b hcd ih =>
    rw [replaceCRLF, if_neg hcd, ih fun hin => h (hin.trans (List.suffix_cons c _).isInfix)]

lemma body_eq (m : TMailMessage) :
    body textCodec m = textCodec.toUnicode (replaceCRLF m.mailBody) := by
  rw [body]
  split_ifs with h
  · rfl
  · rw [replaceCRLF_of_not]
    rintro ⟨s, u, hsplit⟩
    rw [contains, indexOf, List.drop_zero, Option.isSome_map, Bool.not_eq_true,
      Option.isSome_eq_false_iff, Option.isNone_iff_eq_none, search_eq_none_iff] at h
    refine h s.length ?_ ⟨u, ?_⟩
    · rw [← hsplit, List.length_append, List.length_append]
      omega
    · rw [← hsplit, List.append_assoc, List.drop_left]

/-- **The line ends of a body** are CRLF exactly if the text does not start with a newline, and the
text is read back in any case. -/
theorem setBody_lineEnds_iff (m : TMailMessage) (ht : '\r' ∉ t) (hcodec : Keeps textCodec t) :
    (LineEnds (setBody textCodec m t).mailBody ∧ body textCodec (setBody textCodec m t) = t) ↔
      t.head? ≠ some '\n' := by
  have hcr : CR ∉ textCodec.fromUnicode t := fun h => ht (hcodec.cr h)
  have hbody : body textCodec (setBody textCodec m t) = t := by
    rw [body_eq, setBody, TMailMessage.setBody, replaceCRLF_bodyLoop hcr, hcodec.inverse]
  rw [and_iff_left hbody, setBody, TMailMessage.setBody, lineEnds_bodyLoop hcr, ne_eq, hcodec.lf]

/-- Latin-1, for texts that have it. -/
def latin1 : QTextCodec where
  fromUnicode t := t.map fun c => UInt8.ofNat c.toNat
  toUnicode b := b.map fun c => Char.ofNat c.toNat

/-- Two lines and an empty one between them. -/
theorem setBody_lineEnds_lines : (LineEnds (setBody latin1 ⟨⟨[]⟩, []⟩ "a\n\nb\n".toList).mailBody ∧
    body latin1 (setBody latin1 ⟨⟨[]⟩, []⟩ "a\n\nb\n".toList) = "a\n\nb\n".toList) ↔
      "a\n\nb\n".toList.head? ≠ some '\n' :=
  setBody_lineEnds_iff ⟨⟨[]⟩, []⟩ (by decide) ⟨by decide, by decide, by decide⟩

/-- A newline at the start is stored without CR. -/
theorem setBody_leadingNewline : ¬∀ (textCodec : QTextCodec) (m : TMailMessage) (t : QString),
    '\r' ∉ t → Keeps textCodec t → LineEnds (setBody textCodec m t).mailBody ∧
      body textCodec (setBody textCodec m t) = t := by
  intro h
  obtain ⟨hends, -⟩ := h latin1 ⟨⟨[]⟩, []⟩ ['\n'] (by decide) ⟨by decide, by decide, by decide⟩
  have hstored : (setBody latin1 ⟨⟨[]⟩, []⟩ ['\n']).mailBody = [LF] := by decide
  rw [hstored] at hends
  exact absurd (hends.lf 0 rfl).1 (lt_irrefl 0)

end TreeFrog.MailBody
