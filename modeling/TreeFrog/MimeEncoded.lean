import TreeFrog.Base64
import TreeFrog.MailBody

/-!
`THttpUtility::toMimeEncoded` and `fromMimeEncoded`: a text in a header, as `=?codec?B?base64?=`.

The decoder finds the closing `?=`, but the length that it hands to `mid` is below zero, which
stands for all that is left: it decodes what follows the word as well.
-/

namespace TreeFrog.MimeEncoded

open TreeFrog.Bytes TreeFrog.Search TreeFrog.Base64 TreeFrog.MailBody

def QUESTION : UInt8 := 63

/-- A codec with its name. -/
structure NamedCodec extends QTextCodec where
  name : QByteArray

/-- `QByteArray::mid`; a length below zero, or beyond the end, is that up to the end. -/
def mid (b : QByteArray) (pos : ℕ) (len : ℤ) : QByteArray :=
  if len < 0 then b.drop pos else (b.drop pos).take len.toNat

/-- The bytes of the text in the codec; behind an ASCII character, ISO-2022-JP is in its initial
state. -/
def encodedText (codec : NamedCodec) (input : QString) : QByteArray :=
  if toLower codec.name = ascii "iso-2022-jp" then (codec.fromUnicode (input ++ [' '])).dropLast
  else codec.fromUnicode input

def toMimeEncoded (input : QString) : Option NamedCodec → QByteArray
  | none => []
  | some codec => ascii "=?" ++ codec.name ++ ascii "?B?" ++ toBase64 (encodedText codec input) ++
      ascii "?="

/-- The text of the word from `i` on, in the encoding `enc`. -/
def decodeText (mime : QByteArray) (codec : NamedCodec) (enc : QByteArray) (i : ℕ) : QString :=
  match indexOf mime (ascii "?=") i with
  | none => []
  | some j =>
    if i < j then
      if enc = ascii "B" ∨ enc = ascii "b" then
        codec.toUnicode (fromBase64 (mid mime i (i - j)))
      else []
    else []

def fromMimeEncoded (codecForName : QByteArray → Option NamedCodec) (mime : QByteArray) : QString :=
  if !(ascii "=?").isPrefixOf mime then []
  else
    match indexOf mime [QUESTION] 2 with
    | none => []
    | some j =>
      if 2 < j then
        match codecForName (mid mime 2 (j - 2)) with
        | none => []
        | some codec =>
          match indexOf mime [QUESTION] (j + 1) with
          | none => []
          | some k =>
            if j + 1 < k then decodeText mime codec (mid mime (j + 1) (k - (j + 1 : ℕ))) (k + 1)
            else []
      else []

/-- The codec has a name by which it is found, and gives back the text that it encodes. -/
structure Represents (codecForName : QByteArray → Option NamedCodec) (codec : NamedCodec)
    (s : QString) : Prop where
  lookup : codecForName codec.name = some codec
  name_ne : codec.name ≠ []
  name_plain : QUESTION ∉ codec.name
  inverse : codec.toUnicode (encodedText codec s) = s
  empty : codec.toUnicode [] = []

/-! ### What the decoder reads -/

variable {codecForName : QByteArray → Option NamedCodec} {codec : NamedCodec} {s : QString}
  {b l t mime rest base : QByteArray} {c : UInt8}

lemma indexOf_skip (hl : c ∉ l) {n : ℕ} (hn : b.length = n) :
    indexOf (b ++ (l ++ c :: t)) [c] n = some (n + l.length) := by
  rw [indexOf, ← hn, List.drop_left, search_singleton hl, Option.map_some, Nat.add_comm]

lemma mid_left {n : ℕ} (hn : b.length = n) {k : ℤ} (hk : k = l.length) :
    mid (b ++ (l ++ t)) n k = l := by
  rw [mid, if_neg (by omega), hk, Int.toNat_natCast, ← hn, List.drop_left, List.take_left]

lemma decodeText_eq {i : ℕ} (hi : b.length = i) (hbase : QUESTION ∉ base) :
    decodeText (b ++ (base ++ (ascii "?=" ++ rest))) codec (ascii "B") i =
      if base = [] then [] else codec.toUnicode (fromBase64 (base ++ (ascii "?=" ++ rest))) := by
  have hfind : indexOf (b ++ (base ++ (ascii "?=" ++ rest))) (ascii "?=") i =
      some (base.length + i) := by
    have hzero : search (ascii "?=") (ascii "?=" ++ rest) = some 0 := search_eq_zero ⟨rest, rfl⟩
    have hskip := search_skip (n := [61]) (t := ascii "?=" ++ rest) hbase
    rw [indexOf, ← hi, List.drop_left]
    change (search (QUESTION :: [61]) (base ++ (ascii "?=" ++ rest))).map _ = _
    rw [hskip]
    change ((search (ascii "?=") (ascii "?=" ++ rest)).map _).map _ = _
    rw [hzero, Option.map_some, Option.map_some, Nat.zero_add]
  rw [decodeText, hfind]
  dsimp only
  rcases hnil : base with _ | ⟨d, u⟩
  · rw [if_neg (by simp), if_pos rfl]
  · rw [if_pos (by simp), if_pos (.inl rfl), if_neg (List.cons_ne_nil d u), mid,
      if_pos (by simp only [List.length_cons]; omega), ← hi, List.drop_left]

lemma fromMimeEncoded_word (h : Represents codecForName codec s) (hbase : QUESTION ∉ base) :
    fromMimeEncoded codecForName
        (ascii "=?" ++ codec.name ++ ascii "?B?" ++ base ++ ascii "?=" ++ rest) =
      if base = [] then [] else codec.toUnicode (fromBase64 (base ++ (ascii "?=" ++ rest))) := by
  set mime := ascii "=?" ++ codec.name ++ ascii "?B?" ++ base ++ ascii "?=" ++ rest with hmime
  -- the text, parted at each of its question marks
  have h₁ : mime = ascii "=?" ++ (codec.name ++ QUESTION ::
      (ascii "B?" ++ (base ++ (ascii "?=" ++ rest)))) := by
    rw [hmime]
    simp only [List.append_assoc]
    rfl
  have h₂ : mime = (ascii "=?" ++ (codec.name ++ [QUESTION])) ++ (ascii "B" ++ QUESTION ::
      (base ++ (ascii "?=" ++ rest))) := by
    rw [h₁]
    simp only [List.append_assoc]
    rfl
  have h₃ : mime = (ascii "=?" ++ (codec.name ++ ascii "?B?")) ++
      (base ++ (ascii "?=" ++ rest)) := by
    rw [h₁]
    simp only [List.append_assoc]
    rfl
  have hprefix : (ascii "=?").isPrefixOf mime := List.isPrefixOf_iff_prefix.mpr ⟨_, h₁.symm⟩
  have hname := List.length_pos_iff.mpr h.name_ne
  have hj : indexOf mime [QUESTION] 2 = some (2 + codec.name.length) := by
    rw [h₁]
    exact indexOf_skip h.name_plain rfl
  have hencoding : mid mime 2 ((2 + codec.name.length : ℕ) - 2) = codec.name := by
    rw [h₁]
    exact mid_left rfl (by push_cast; omega)
  have hlen : (ascii "=?" ++ (codec.name ++ [QUESTION])).length = 2 + codec.name.length + 1 := by
    simp [ascii]
    omega
  have hk : indexOf mime [QUESTION] (2 + codec.name.length + 1) =
      some (2 + codec.name.length + 1 + 1) := by
    rw [h₂]
    exact indexOf_skip (by decide) hlen
  have henc : mid mime (2 + codec.name.length + 1)
      ((2 + codec.name.length + 1 + 1 : ℕ) - (2 + codec.name.length + 1 : ℕ)) = ascii "B" := by
    rw [h₂]
    exact mid_left hlen (by simp [ascii])
  rw [fromMimeEncoded, hprefix, hj]
  simp only [Bool.not_true, Bool.false_eq_true, if_false, hencoding, h.lookup, hk, henc]
  rw [if_pos (by omega), if_pos (by omega), h₃]
  refine decodeText_eq ?_ hbase
  simp [ascii]
  omega

/-! ### What is decoded -/

/-- The base64 letters behind the word are too few for a byte. -/
def Harmless (array rest : QByteArray) : Prop :=
  array = [] ∨ letters rest = 0 ∨ letters rest = 1 ∧ array.length % 3 = 0

lemma question_not_mem (array : QByteArray) : QUESTION ∉ toBase64 array := fun h =>
  absurd (mem_toBase64 h) (by decide)

lemma fromMimeEncoded_eq (h : Represents codecForName codec s) (rest : QByteArray) :
    fromMimeEncoded codecForName (toMimeEncoded s (some codec) ++ rest) =
      if encodedText codec s = [] then [] else codec.toUnicode
        (encodedText codec s ++ decode 0 (spare (encodedText codec s)) rest) := by
  rw [toMimeEncoded, fromMimeEncoded_word h (question_not_mem _)]
  by_cases hnil : encodedText codec s = []
  · rw [hnil]
    rfl
  · rw [if_neg (toBase64_ne_nil hnil), if_neg hnil, fromBase64, decode_toBase64]
    rfl

lemma spare_lt (bs : QByteArray) : spare bs < 8 := by
  rw [spare]
  split_ifs <;> omega

lemma harmless_iff {array : QByteArray} (hne : array ≠ []) :
    Harmless array rest ↔ decode 0 (spare array) rest = [] := by
  rw [decode_eq_nil (spare_lt array), Harmless, or_iff_right hne, spare]
  split_ifs <;> omega

/-- **An encoded word is read back** if the base64 letters behind it are too few for a byte, and
only then in a codec that takes no added bytes for nothing. -/
theorem fromMimeEncoded_toMimeEncoded (h : Represents codecForName codec s) (rest : QByteArray) :
    (Harmless (encodedText codec s) rest →
      fromMimeEncoded codecForName (toMimeEncoded s (some codec) ++ rest) = s) ∧
    ((∀ extra ≠ [], codec.toUnicode (encodedText codec s ++ extra) ≠ s) →
      (fromMimeEncoded codecForName (toMimeEncoded s (some codec) ++ rest) = s ↔
        Harmless (encodedText codec s) rest)) := by
  have hinverse := h.inverse
  rw [fromMimeEncoded_eq h]
  by_cases hnil : encodedText codec s = []
  · rw [hnil, h.empty] at hinverse
    rw [if_pos hnil]
    exact ⟨fun _ => hinverse, fun _ => iff_of_true hinverse (.inl hnil)⟩
  · rw [if_neg hnil, harmless_iff hnil]
    refine ⟨fun hextra => by rw [hextra, List.append_nil, hinverse], fun hreads => ?_⟩
    constructor
    · intro hs
      by_contra hextra
      exact hreads _ hextra hs
    · intro hextra
      rw [hextra, List.append_nil, hinverse]

/-- Latin-1 with its name. -/
def iso88591 : NamedCodec := { latin1 with name := ascii "ISO-8859-1" }

def onlyLatin1 (name : QByteArray) : Option NamedCodec :=
  if name = ascii "ISO-8859-1" then some iso88591 else none

lemma represents_latin1 {s : QString}
    (h : iso88591.toUnicode (encodedText iso88591 s) = s) : Represents onlyLatin1 iso88591 s where
  lookup := rfl
  name_ne := by decide
  name_plain := by decide
  inverse := h
  empty := rfl

/-- A name in front of a comment without letters. -/
theorem fromMimeEncoded_toMimeEncoded_name :
    (Harmless (encodedText iso88591 ['é']) (ascii " <>") →
      fromMimeEncoded onlyLatin1 (toMimeEncoded ['é'] (some iso88591) ++ ascii " <>") = ['é']) ∧
    (fromMimeEncoded onlyLatin1 (toMimeEncoded ['é'] (some iso88591) ++ ascii " <>") = ['é'] ↔
      Harmless (encodedText iso88591 ['é']) (ascii " <>")) := by
  have h := fromMimeEncoded_toMimeEncoded (@represents_latin1 ['é'] (by decide)) (ascii " <>")
  refine ⟨h.1, h.2 fun extra hextra heq => hextra ?_⟩
  have hmap : (encodedText iso88591 ['é'] ++ extra).map (fun c => Char.ofNat c.toNat) = ['é'] := heq
  have hlen := congrArg List.length hmap
  rw [List.length_map, List.length_append] at hlen
  exact List.length_eq_zero_iff.mp (Nat.add_left_cancel (hlen.trans (Nat.add_zero 1).symm))

/-- A name in front of an address, as `addAddress` writes them. -/
theorem fromMimeEncoded_address : ¬∀ (codecForName : QByteArray → Option NamedCodec)
    (codec : NamedCodec) (s : QString) (rest : QByteArray), Represents codecForName codec s →
      fromMimeEncoded codecForName (toMimeEncoded s (some codec) ++ rest) = s := by
  intro h
  have hread := h onlyLatin1 iso88591 ['é'] (ascii " <a@b.c>") (represents_latin1 (by decide))
  have hrun : fromMimeEncoded onlyLatin1 (toMimeEncoded ['é'] (some iso88591) ++
      ascii " <a@b.c>") ≠ ['é'] := by decide +kernel
  exact hrun hread

end TreeFrog.MimeEncoded
