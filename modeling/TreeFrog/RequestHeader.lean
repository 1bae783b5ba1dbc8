import TreeFrog.Decimal
import TreeFrog.MessageHeader

/-!
HTTP request headers: the request line, and the fields behind it.
-/

namespace TreeFrog.RequestHeader

open TreeFrog.Bytes TreeFrog.MessageHeader

/-- The exception that answers a request with an error status. -/
structure ClientErrorException where
  statusCode : ℕ
  deriving DecidableEq

structure THttpRequestHeader extends TInternetMessageHeader where
  majVersion : ℤ := 1
  minVersion : ℤ := 1
  reqMethod : QByteArray := []
  reqUri : QByteArray := []
  deriving DecidableEq

namespace THttpRequestHeader

/-- The method, the path and the version of the request line, as far as the line has them. -/
def readLine (h : THttpRequestHeader) (line : QByteArray) : THttpRequestHeader :=
  match indexOf line [SP] 0 with
  | none => h
  | some i =>
    if i = 0 then h
    else
      let h := { h with reqMethod := line.take i }
      match indexOf line [SP] (i + 1) with
      | none => h
      | some j =>
        let h := { h with reqUri := (line.drop (i + 1)).take (j - (i + 1)) }
        match indexOf line (ascii "HTTP/") j with
        | none => h
        | some k =>
          if k + 7 < line.length then
            { h with
              majVersion := toInt ((line.drop (k + 5)).take 1)
              minVersion := toInt ((line.drop (k + 7)).take 1) }
          else h

/-- The constructor that parses a text. A text that begins with a line end, or has none,
gives the empty header. -/
def ofBytes (str : QByteArray) : THttpRequestHeader :=
  match indexOf str [LF] 0 with
  | none => {}
  | some i =>
    if i = 0 then {}
    else
      let h : THttpRequestHeader :=
        { toTInternetMessageHeader := TInternetMessageHeader.parse {} (str.drop (i + 1)) }
      h.readLine (trimmed (str.take i))

def toByteArray (h : THttpRequestHeader) : QByteArray :=
  h.reqMethod ++ [SP] ++ h.reqUri ++ ascii " HTTP/" ++ Decimal.number h.majVersion ++ ascii "." ++
    Decimal.number h.minVersion ++ CRLF ++ h.toTInternetMessageHeader.toByteArray

@[simp] lemma readLine_fields (h : THttpRequestHeader) (line : QByteArray) :
    (h.readLine line).toTInternetMessageHeader = h.toTInternetMessageHeader := by
  unfold readLine
  cases indexOf line [SP] 0 with
  | none => rfl
  | some i =>
    simp only
    split_ifs
    · rfl
    · cases indexOf line [SP] (i + 1) with
      | none => rfl
      | some j =>
        simp only
        cases indexOf line (ascii "HTTP/") j with
        | none => rfl
        | some k => simp only; split_ifs <;> rfl

lemma ofBytes_of_line {line rest : QByteArray} (hne : line ≠ []) (hl : LF ∉ line) :
    ofBytes (line ++ LF :: rest) =
      readLine { toTInternetMessageHeader := TInternetMessageHeader.parse {} rest }
        (trimmed line) := by
  have h : indexOf (line ++ LF :: rest) [LF] 0 = some line.length := by
    rw [indexOf_zero, Search.search_singleton hl]
  have hpos : line.length ≠ 0 := by simpa using hne
  unfold ofBytes
  rw [h]
  simp only [if_neg hpos]
  have hd : (line ++ LF :: rest).drop (line.length + 1) = rest := by
    rw [← List.drop_drop, List.drop_left]; rfl
  rw [hd, List.take_left]

end THttpRequestHeader

end TreeFrog.RequestHeader
