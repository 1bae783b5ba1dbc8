import TreeFrog.MailData
import TreeFrog.MessageHeader

/-!
`TSmtpMailer::cmdData` and the message it sends: the fields of the header, an empty line and the
body, whose line ends are CRLF. The lines of the message go out as they are.
-/

namespace TreeFrog.SmtpMailer

open TreeFrog.Bytes TreeFrog.MessageHeader TreeFrog.MailData

/-! ### The message -/

structure TMailMessage where
  header : TInternetMessageHeader
  mailBody : QByteArray

/-- The loop of `setBody`, with the byte before. -/
def bodyLoop : Option UInt8 → QByteArray → QByteArray
  | _, [] => []
  | before, c :: ba =>
    (if c = LF ∧ before ≠ none ∧ before ≠ some CR then CRLF else [c]) ++ bodyLoop (some c) ba

namespace TMailMessage

variable {QString : Type}

/-- `setBody` with the codec of the message. -/
def setBody (m : TMailMessage) (fromUnicode : QString → QByteArray) (body : QString) :
    TMailMessage :=
  { m with mailBody := bodyLoop none (fromUnicode body) }

def toByteArray (m : TMailMessage) : QByteArray := m.header.toByteArray ++ m.mailBody

end TMailMessage

/-! ### The mailer -/

/-- The bytes written to the socket, and the reply codes it will read. -/
structure Socket where
  written : QByteArray
  replies : List ℤ

/-- `TSmtpMailer::write`. -/
def write (s : Socket) (command : QByteArray) : Socket :=
  { s with written := s.written ++ (if CRLF.isSuffixOf command then command else command ++ CRLF) }

/-- `TSmtpMailer::read`; without a reply the code is 0. -/
def read (s : Socket) : ℤ × Socket := (s.replies.headD 0, { s with replies := s.replies.tail })

def cmd (s : Socket) (command : QByteArray) : ℤ × Socket := read (write s command)

def cmdData (s : Socket) (message : QByteArray) : Bool × Socket :=
  match cmd s (ascii "DATA") with
  | (code, s) =>
    if code ≠ 354 then (false, s)
    else
      match cmd s (message ++ CRLF ++ [DOT] ++ CRLF) with
      | (code, s) => (code = 250, s)

/-- After the reply 354, the server receives the message that is sent, and the data end with the
bytes that are sent. -/
def Transparent (message : QByteArray) : Prop :=
  ∀ (s : Socket) (codes : List ℤ), s.replies = 354 :: codes → ∃ data text,
    (cmdData s message).2.written = s.written ++ ascii "DATA" ++ CRLF ++ data ∧
      receive data = some (text, []) ∧ UpToCRLF text message

lemma cmdData_written {s : Socket} {codes : List ℤ} (h : s.replies = 354 :: codes)
    (message : QByteArray) :
    (cmdData s message).2.written = s.written ++ ascii "DATA" ++ CRLF ++ sent message := by
  have hline : CRLF.isSuffixOf (ascii "DATA") = false := by decide
  have hdata : CRLF.isSuffixOf (sent message) = true :=
    List.isSuffixOf_iff_suffix.mpr (List.suffix_append _ _)
  rw [cmdData]
  simp only [cmd, read, write, h, hline, List.headD_cons, ne_eq, not_true_eq_false, if_false]
  rw [show message ++ CRLF ++ [DOT] ++ CRLF = sent message from rfl, if_pos hdata]
  simp

/-- **The message arrives as it is** exactly when no line of it begins with a dot. -/
theorem transparent_iff {QString : Type} (header : TInternetMessageHeader)
    (fromUnicode : QString → QByteArray) (body : QString) :
    Transparent ((TMailMessage.mk header []).setBody fromUnicode body).toByteArray ↔
      ¬ Dotted ((TMailMessage.mk header []).setBody fromUnicode body).toByteArray := by
  generalize ((TMailMessage.mk header []).setBody fromUnicode body).toByteArray = message
  rw [← receive_sent_iff]
  constructor
  · intro h
    obtain ⟨data, text, hwritten, hreceive⟩ := h ⟨[], [354]⟩ [] rfl
    rw [cmdData_written rfl] at hwritten
    rw [List.append_cancel_left hwritten]
    exact ⟨text, hreceive⟩
  · rintro ⟨text, hreceive⟩ s codes hs
    exact ⟨sent message, text, cmdData_written hs message, hreceive⟩

/-- A body in which a line is a single dot: what follows it is read as commands. -/
theorem not_transparent_dot :
    ¬ ∀ (header : TInternetMessageHeader) (body : QByteArray),
      Transparent ((TMailMessage.mk header []).setBody id body).toByteArray := by
  intro h
  obtain ⟨data, text, hwritten, hreceive, -⟩ :=
    h ⟨[(ascii "Subject", some (ascii "x"))]⟩ (ascii "a\n.\nRSET\n") ⟨[], [354]⟩ [] rfl
  rw [cmdData_written rfl] at hwritten
  rw [← List.append_cancel_left hwritten] at hreceive
  have hbehind : (receive (sent
      ((TMailMessage.mk ⟨[(ascii "Subject", some (ascii "x"))]⟩ []).setBody id
        (ascii "a\n.\nRSET\n")).toByteArray)).map Prod.snd =
          some (ascii "RSET\r\n\r\n.\r\n") := by decide +kernel
  rw [hreceive, Option.map_some] at hbehind
  have hnil : ([] : QByteArray) = ascii "RSET\r\n\r\n.\r\n" := Option.some.inj hbehind
  exact absurd hnil (by decide)

end TreeFrog.SmtpMailer
