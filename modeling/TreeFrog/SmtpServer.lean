import TreeFrog.Decimal
import TreeFrog.SmtpDialog

/-!
An SMTP server at the other end of `TSmtpMailer`: what it has accepted when `send` is over. What it
replies is open, and replies may fail to arrive, or arrive in part.
-/

namespace TreeFrog.SmtpServer

open Bytes Search Exceptions Decimal SmtpDialog
open MailData (DOT nextLine nextLine_append receive UpToCRLF Dotted sent)

/-! ### The server -/

def HYPHEN : UInt8 := 45

/-- A reply: the lines behind its first ones, and the last line, have no line end in them. -/
structure Reply where
  code : ℕ
  texts : List QByteArray
  last : QByteArray
  code_ge : 100 ≤ code
  code_lt : code < 1000
  texts_lf : ∀ t ∈ texts, LF ∉ t
  last_lf : LF ∉ last

namespace Reply

def line (r : Reply) (mark : UInt8) (text : QByteArray) : QByteArray :=
  decimal r.code ++ mark :: text ++ CRLF

def lines (r : Reply) : List QByteArray := r.texts.map (r.line HYPHEN) ++ [r.line SP r.last]

end Reply

structure Mail where
  sender : QByteArray
  recipients : List QByteArray
  text : QByteArray
  deriving DecidableEq

/-- What the next line is: a command, what is asked for behind AUTH, or the first one of a text. -/
inductive Mode where
  | command
  | authenticating
  | data
  deriving DecidableEq

structure Server where
  mode : Mode := .command
  sender : QByteArray := []
  recipients : List QByteArray := []
  /-- What is not yet a line, or a text. -/
  inbox : QByteArray := []
  history : List QByteArray := []
  accepted : List Mail := []

/-- What a server replies to the last of all that it has been sent. -/
abbrev Policy := List QByteArray → Reply

namespace Server

/-- A line, and the code that is replied. -/
def command (sv : Server) (line : QByteArray) (code : ℕ) : Server :=
  let sv := { sv with history := sv.history ++ [line] }
  if sv.mode = .authenticating ∨ code = 334 then
    { sv with mode := if code = 334 then .authenticating else .command }
  else if line = ascii "DATA" then { sv with mode := if code = 354 then .data else .command }
  else if code ≠ 250 then sv
  else if line = ascii "RSET" ∨ (ascii "EHLO ").isPrefixOf line then
    { sv with sender := [], recipients := [] }
  else if (ascii "MAIL FROM:<").isPrefixOf line then
    { sv with sender := (line.drop 11).dropLast, recipients := [] }
  else if (ascii "RCPT TO:<").isPrefixOf line then
    { sv with recipients := sv.recipients ++ [(line.drop 9).dropLast] }
  else sv

/-- A text, and the code that is replied. -/
def text (sv : Server) (text : QByteArray) (code : ℕ) : Server :=
  { sv with
    history := sv.history ++ [text], mode := .command, sender := [], recipients := []
    accepted := if code = 250 then sv.accepted ++ [⟨sv.sender, sv.recipients, text⟩]
      else sv.accepted }

/-- What there is to be read, and the replies. -/
def takeLoop (policy : Policy) : ℕ → Server → QByteArray → Server × List Reply
  | 0, sv, b => ({ sv with inbox := b }, [])
  | fuel + 1, sv, b =>
    match if sv.mode = .data then receive b else nextLine b with
    | none => ({ sv with inbox := b }, [])
    | some (front, rest) =>
      let reply := policy (sv.history ++ [front])
      let sv := if sv.mode = .data then sv.text front reply.code else sv.command front reply.code
      let r := takeLoop policy fuel sv rest
      (r.1, reply :: r.2)

def take (policy : Policy) (sv : Server) (b : QByteArray) : Server × List Reply :=
  takeLoop policy (sv.inbox.length + b.length + 1) sv (sv.inbox ++ b)

end Server

/-- The server behind all that has been written to it. -/
def serve (policy : Policy) (written : List Written) : Server :=
  written.foldl (fun sv w => (sv.take policy w.bytes).1) {}

/-- What arrives of these lines: whole lines, the first ones or all, in pieces. -/
def Arrives (lines pieces : List QByteArray) : Prop :=
  ∃ groups : List (List QByteArray), pieces = groups.map List.flatten ∧ [] ∉ groups ∧
    groups.flatten <+: lines

/-- The other end is a server, of which the mailer gets to know some of the replies. -/
structure Serves (policy : Policy) (peer : Peer) : Prop where
  connected : ∀ pieces, peer.connected = some pieces → ∃ reply : Reply, Arrives reply.lines pieces
  answer : ∀ written w pieces, peer.answer (written ++ [w]) = some pieces →
    Arrives (((serve policy written).take policy w.bytes).2.flatMap Reply.lines) pieces

/-! ### Reading a reply -/

lemma isspace_of_isdigit {c : UInt8} (h : isdigit c) : isspace c = false := by
  unfold isdigit at h
  unfold isspace SP
  simp only [Bool.and_eq_true, decide_eq_true_eq, UInt8.le_iff_toNat_le] at h
  simp only [Bool.or_eq_false_iff, Bool.and_eq_false_iff, decide_eq_false_iff_not,
    ← UInt8.toNat_inj, UInt8.le_iff_toNat_le]
  have h48 : (48 : UInt8).toNat = 48 := rfl
  have h32 : (32 : UInt8).toNat = 32 := rfl
  have h13 : (13 : UInt8).toNat = 13 := rfl
  omega

lemma isdigit_ne {c d : UInt8} (h : isdigit c) (hd : isdigit d = false) : c ≠ d := by
  rintro rfl
  rw [h] at hd
  cases hd

lemma constData_decimal (n : ℕ) : constData (decimal n) = decimal n := by
  refine List.takeWhile_eq_self_iff.mpr fun c hc => ?_
  simpa using isdigit_ne (isdigit_of_mem_decimal hc) (by decide)

lemma decimal_eq_cons (n : ℕ) : ∃ c ds, decimal n = c :: ds ∧ isdigit c := by
  obtain ⟨c, ds, hds⟩ := List.exists_cons_of_ne_nil (decimal_ne_nil n)
  exact ⟨c, ds, hds, isdigit_of_mem_decimal (hds ▸ List.mem_cons_self)⟩

lemma dropWhile_decimal_append (n : ℕ) (b : QByteArray) :
    (decimal n ++ b).dropWhile isspace = decimal n ++ b := by
  obtain ⟨c, ds, hds, hc⟩ := decimal_eq_cons n
  have hspace : ¬ isspace c := by
    rw [isspace_of_isdigit hc]
    exact Bool.false_ne_true
  rw [hds, List.cons_append, List.dropWhile_cons_of_neg hspace]

lemma dropWhile_decimal (n : ℕ) : (decimal n).dropWhile isspace = decimal n := by
  have h := dropWhile_decimal_append n []
  rwa [List.append_nil] at h

lemma decimal_ne_cons (n : ℕ) {c : UInt8} {ds : QByteArray} (hc : isdigit c = false) :
    decimal n ≠ c :: ds := by
  obtain ⟨d, ds', hds, hd⟩ := decimal_eq_cons n
  intro h
  rw [hds] at h
  exact isdigit_ne hd hc (List.cons.inj h).1

lemma toInt_decimal {n : ℕ} (h : n < 2 ^ 31) : toInt (decimal n) = n := by
  have hdigits : digits? (decimal n) = some n := by
    rw [digits?, if_pos ⟨decimal_ne_nil n, List.all_eq_true.mpr fun _ => isdigit_of_mem_decimal⟩,
      digitsVal_decimal]
  have hstrtoull : strtoull (decimal n) = some n := by
    rw [strtoull, constData_decimal, dropWhile_decimal]
    split
    · next heq => exact absurd heq (decimal_ne_cons n (by decide))
    · exact hdigits
  rw [toInt, constData_decimal, dropWhile_decimal, hstrtoull]
  split
  · next heq => exact absurd heq (decimal_ne_cons n (by decide))
  · exact if_pos h

lemma length_decimal {n : ℕ} (h : 100 ≤ n) (h' : n < 1000) : (decimal n).length = 3 := by
  rw [decimal_rec, if_neg (by omega), decimal_rec, if_neg (by omega), decimal_rec,
    if_pos (by omega)]
  rfl

lemma readLine_eq {s : QSslSocket} {front rest : QByteArray} (h : s.buffer = front ++ LF :: rest)
    (hfront : LF ∉ front) :
    s.readLine = (front ++ [LF], { s with buffer := rest }) := by
  have htake : (front ++ LF :: rest).take (front.length + 1) = front ++ [LF] := by
    rw [List.take_length_add_append]
    rfl
  have hdrop : (front ++ LF :: rest).drop (front.length + 1) = rest := by
    rw [List.drop_length_add_append]
    rfl
  unfold QSslSocket.readLine
  rw [h, search_singleton hfront]
  dsimp only
  rw [htake, hdrop]

lemma readLine_nil {s : QSslSocket} (h : s.buffer = []) : s.readLine = ([], s) := by
  have hs : { s with buffer := [] } = s := by rw [← h]
  unfold QSslSocket.readLine
  rw [h]
  exact congrArg (Prod.mk []) hs

lemma trimmed_decimal (n : ℕ) (b : QByteArray) :
    trimmed (decimal n ++ b) = decimal n ++ b.rdropWhile isspace := by
  rw [trimmed, dropWhile_decimal_append]
  induction b using List.reverseRecOn with
  | nil =>
    rw [List.append_nil, List.rdropWhile_nil, List.append_nil, List.rdropWhile_eq_self_iff]
    intro hne
    rw [isspace_of_isdigit (isdigit_of_mem_decimal (List.getLast_mem hne))]
    exact Bool.false_ne_true
  | append_singleton b c ih =>
    rw [← List.append_assoc, List.rdropWhile_concat, List.rdropWhile_concat]
    split_ifs
    · exact ih
    · rw [List.append_assoc]

variable {r : Reply} {mark : UInt8} {text : QByteArray}

lemma line_eq (r : Reply) (mark : UInt8) (text : QByteArray) :
    r.line mark text = (decimal r.code ++ mark :: text ++ [CR]) ++ [LF] := by
  simp [Reply.line, CRLF]

lemma lf_not_mem_line (hmark : mark ≠ LF) (htext : LF ∉ text) :
    LF ∉ decimal r.code ++ mark :: text ++ [CR] := by
  have hdecimal : LF ∉ decimal r.code := fun hmem =>
    isdigit_ne (isdigit_of_mem_decimal hmem) (by decide : isdigit LF = false) rfl
  simp only [List.mem_append, List.mem_cons, List.not_mem_nil, or_false, not_or]
  exact ⟨⟨hdecimal, hmark.symm, htext⟩, by decide⟩

/-- What `read` makes of a line: it is not empty, its code is read, and behind it comes the mark, if
there is anything. -/
lemma line_read (r : Reply) (mark : UInt8) (text : QByteArray) :
    trimmed (r.line mark text) ≠ [] ∧ toInt ((trimmed (r.line mark text)).take 3) = r.code ∧
      (isspace mark = false → 4 ≤ (trimmed (r.line mark text)).length) ∧
      (4 ≤ (trimmed (r.line mark text)).length →
        (trimmed (r.line mark text))[3]? = some mark) := by
  have hthree := length_decimal r.code_ge r.code_lt
  obtain ⟨t, ht⟩ : ∃ t, (mark :: text ++ CRLF).rdropWhile isspace = t := ⟨_, rfl⟩
  have hline : trimmed (r.line mark text) = decimal r.code ++ t := by
    rw [← ht, ← trimmed_decimal]
    simp [Reply.line]
  have hbegin : t <+: mark :: text ++ CRLF := ht ▸ List.rdropWhile_prefix _ _
  have hcode := r.code_lt
  rw [hline]
  refine ⟨List.append_ne_nil_of_left_ne_nil (decimal_ne_nil _) _, ?_, fun hmark => ?_,
    fun hlen => ?_⟩
  · rw [List.take_left' hthree, toInt_decimal (by omega)]
  · -- the mark is no white space, so it is not cut off
    have hne : t ≠ [] := by
      intro hnil
      rw [hnil, List.rdropWhile_eq_nil_iff] at ht
      have hspace := ht mark List.mem_cons_self
      rw [hmark] at hspace
      cases hspace
    have hpos := List.length_pos_iff.mpr hne
    rw [List.length_append]
    omega
  · obtain ⟨c, t', rfl⟩ : ∃ c t', t = c :: t' := by
      refine List.exists_cons_of_ne_nil (List.ne_nil_of_length_pos ?_)
      rw [List.length_append] at hlen
      omega
    rw [List.getElem?_append_right (by omega), hthree]
    obtain ⟨u, hu⟩ := hbegin
    rw [(List.cons.inj hu).1]
    rfl

/-- Lines of a reply that follow each other, up to the last one or not. -/
inductive Rest (r : Reply) : List QByteArray → Prop
  | nil : Rest r []
  | text {t : QByteArray} {ls : List QByteArray} (ht : LF ∉ t) (h : Rest r ls) :
      Rest r (r.line HYPHEN t :: ls)
  | last : Rest r [r.line SP r.last]

lemma rest_cons {l : QByteArray} {ls : List QByteArray} (h : Rest r (l :: ls)) :
    (∃ t, LF ∉ t ∧ l = r.line HYPHEN t ∧ Rest r ls) ∨ l = r.line SP r.last ∧ ls = [] := by
  cases h with
  | text ht h => exact .inl ⟨_, ht, rfl, h⟩
  | last => exact .inr ⟨rfl, rfl⟩

lemma rest_lines (r : Reply) {ls : List QByteArray} (h : ls <+: r.lines) : Rest r ls := by
  unfold Reply.lines at h
  have htexts := r.texts_lf
  generalize r.texts = texts at h htexts
  induction texts generalizing ls with
  | nil =>
    rcases List.prefix_cons_iff.mp h with rfl | ⟨t, rfl, ht⟩
    · exact .nil
    · rw [List.prefix_nil.mp ht]
      exact .last
  | cons t texts ih =>
    obtain ⟨ht, htexts⟩ := List.forall_mem_cons.mp htexts
    rw [List.map_cons, List.cons_append] at h
    rcases List.prefix_cons_iff.mp h with rfl | ⟨ls, rfl, hls⟩
    · exact .nil
    · exact .text ht (ih hls htexts)

lemma readLine_line {s : QSslSocket} {rest : QByteArray} (hmark : mark ≠ LF) (htext : LF ∉ text)
    (h : s.buffer = r.line mark text ++ rest) :
    s.readLine = (r.line mark text, { s with buffer := rest }) := by
  rw [line_eq, List.append_assoc, List.singleton_append] at h
  rw [readLine_eq h (lf_not_mem_line hmark htext), line_eq]

lemma addCode_line (r : Reply) (mark : UInt8) (text : QByteArray) {code : ℤ}
    (hcode : code = 0 ∨ code = r.code) : addCode code (trimmed (r.line mark text)) = r.code := by
  unfold addCode
  split
  · exact (line_read r mark text).2.1
  · next hzero => exact hcode.resolve_left hzero

lemma eq_nil_of_flatten {groups : List (List QByteArray)} (h : [] ∉ groups)
    (hflatten : groups.flatten = []) : groups = [] := by
  refine List.eq_nil_iff_forall_not_mem.mpr fun g hg => h ?_
  rwa [List.flatten_eq_nil_iff.mp hflatten g hg] at hg

lemma length_line_pos (r : Reply) (mark : UInt8) (text : QByteArray) :
    0 < (r.line mark text).length := by
  rw [line_eq, List.length_append]
  exact Nat.lt_add_left _ Nat.zero_lt_one

lemma readLoop_lines (r : Reply) {fuel : ℕ} {code : ℤ} {reply : List QByteArray} {s : QSslSocket}
    {current : List QByteArray} {groups : List (List QByteArray)}
    (hbuffer : s.buffer = current.flatten) (harriving : s.arriving = groups.map List.flatten)
    (hgroups : [] ∉ groups) (hrest : Rest r (current ++ groups.flatten))
    (hcode : code = 0 ∨ code = r.code) (hfuel : turns s < fuel) :
    (readLoop fuel code reply s).2.buffer = [] ∧ (readLoop fuel code reply s).2.arriving = [] ∧
      ((readLoop fuel code reply s).1.code = r.code ∨
        (readLoop fuel code reply s).1.code = code ∧ current ++ groups.flatten = []) := by
  have hpos : (0 : ℤ) < r.code := by
    have := r.code_ge
    omega
  induction fuel generalizing code reply s current groups with
  | zero => exact absurd hfuel (Nat.not_lt_zero _)
  | succ fuel ih =>
    unfold turns at hfuel
    unfold readLoop
    dsimp only
    cases current with
    | nil =>
      rw [readLine_nil hbuffer]
      dsimp only
      rw [if_pos (by decide : trimmed [] = [])]
      cases groups with
      | nil =>
        rw [harriving]
        exact ⟨hbuffer, harriving, .inr ⟨rfl, rfl⟩⟩
      | cons g groups =>
        -- the next piece
        rw [hbuffer, harriving] at hfuel ⊢
        refine @ih code reply _ g groups rfl rfl (fun h => hgroups (.tail _ h)) hrest hcode ?_
        unfold turns
        simp only [List.map_cons, List.flatten_cons, List.flatten_nil, List.nil_append,
          List.length_append, List.length_cons, List.length_nil] at hfuel ⊢
        omega
    | cons l current =>
      rw [List.flatten_cons] at hbuffer
      rcases rest_cons hrest with ⟨t, ht, rfl, hls⟩ | ⟨rfl, hnil⟩
      · obtain ⟨hne, -, hlen, hmark⟩ := line_read r HYPHEN t
        have hlen := hlen (by decide)
        rw [readLine_line (by decide) ht hbuffer]
        dsimp only
        rw [if_neg hne, addCode_line r HYPHEN t hcode, if_neg (Nat.not_lt.mpr hlen), hmark hlen,
          if_neg fun h => absurd h.2 (by decide)]
        have hturns : turns { s with buffer := current.flatten } < fuel := by
          have := length_line_pos r HYPHEN t
          unfold turns
          rw [hbuffer, List.length_append] at hfuel
          dsimp only
          omega
        obtain ⟨hbuffer', harriving', hcode'⟩ := @ih r.code
          (addText reply (trimmed (r.line HYPHEN t))) { s with buffer := current.flatten } _ _ rfl
          harriving hgroups hls (.inr rfl) hturns
        exact ⟨hbuffer', harriving', .inl (hcode'.elim id And.left)⟩
      · obtain ⟨hcurrent, hflatten⟩ := List.append_eq_nil_iff.mp hnil
        obtain rfl := eq_nil_of_flatten hgroups hflatten
        obtain ⟨hne, -, -, hmark⟩ := line_read r SP r.last
        rw [readLine_line (by decide) r.last_lf hbuffer, hcurrent]
        dsimp only
        rw [if_neg hne, addCode_line r SP r.last hcode]
        split
        · exact ⟨rfl, harriving, .inl rfl⟩
        · next hlen =>
          rw [if_pos ⟨hpos, hmark (Nat.not_lt.mp hlen)⟩]
          exact ⟨rfl, harriving, .inl rfl⟩

/-- All that has arrived has been read. -/
def Quiet (s : State) : Prop := s.socket.buffer = [] ∧ s.socket.arriving = []

lemma read_reply (r : Reply) {s : State} (hbuffer : s.socket.buffer = [])
    (harrives : Arrives r.lines s.socket.arriving) :
    ∃ received s', SmtpDialog.read s = .ok received s' ∧ Quiet s' ∧
      s'.socket.written = s.socket.written ∧
      (received.code = r.code ∨ received.code = 0 ∧ s.socket.arriving = []) := by
  obtain ⟨groups, harriving, hgroups, hlines⟩ := harrives
  obtain ⟨hbuffer', harriving', hcode⟩ := @readLoop_lines r (turns s.socket + 1) 0 [] s.socket []
    groups hbuffer harriving hgroups (rest_lines r hlines) (.inl rfl) (Nat.lt_succ_self _)
  refine ⟨_, _, rfl, ⟨hbuffer', harriving'⟩, (frame_readLoop _ _ _ _).1, hcode.imp_right ?_⟩
  rintro ⟨hzero, hflatten⟩
  refine ⟨hzero, ?_⟩
  rw [harriving, eq_nil_of_flatten hgroups hflatten]
  rfl

/-! ### What the server takes -/

lemma received_of_undotted {message : QByteArray} (hdot : ¬ Dotted message) :
    ∃ text, receive (sent message) = some (text, []) ∧ UpToCRLF text message :=
  (MailData.receive_sent_iff message).mpr hdot

variable {policy : Policy} {peer : Peer} {sv : Server} {c : QByteArray}

lemma serve_concat (policy : Policy) (written : List Written) (w : Written) :
    serve policy (written ++ [w]) = ((serve policy written).take policy w.bytes).1 :=
  List.foldl_concat ..

lemma inbox_command (sv : Server) (c : QByteArray) (code : ℕ) :
    (sv.command c code).inbox = sv.inbox := by
  unfold Server.command
  dsimp only
  split_ifs <;> rfl

lemma accepted_command (sv : Server) (c : QByteArray) (code : ℕ) :
    (sv.command c code).accepted = sv.accepted := by
  unfold Server.command
  dsimp only
  split_ifs <;> rfl

lemma takeLoop_nil (fuel : ℕ) (hinbox : sv.inbox = []) :
    Server.takeLoop policy fuel sv [] = (sv, []) := by
  have hsv : { sv with inbox := [] } = sv := by rw [← hinbox]
  cases fuel with
  | zero => exact congrArg (·, []) hsv
  | succ fuel =>
    have hnone : (if sv.mode = .data then receive [] else nextLine []) = none := by
      split <;> rfl
    unfold Server.takeLoop
    rw [hnone]
    exact congrArg (·, []) hsv

lemma search_crlf_of_not_mem (h : LF ∉ c) : search CRLF c = none := by
  refine search_eq_none_iff.mpr fun j _ hpre => ?_
  exact h (List.mem_of_mem_drop (hpre.subset (by decide : LF ∈ CRLF)))

lemma line_of_not_mem (h : LF ∉ c) : SmtpDialog.line c = c ++ CRLF := by
  refine if_neg fun hsuffix => h ?_
  exact (List.isSuffixOf_iff_suffix.mp hsuffix).subset (by decide)

lemma take_sent (policy : Policy) (hinbox : sv.inbox = []) (hmode : sv.mode = .data)
    {message : QByteArray} (hdot : ¬ Dotted message) :
    ∃ (text : QByteArray) (reply : Reply), UpToCRLF text message ∧
      sv.take policy (sent message) = (sv.text text reply.code, [reply]) := by
  obtain ⟨text, hreceive, hsame⟩ := received_of_undotted hdot
  have hfront : (if sv.mode = .data then receive (sent message) else nextLine (sent message)) =
      some (text, []) := by
    rw [if_pos hmode, hreceive]
  refine ⟨text, policy (sv.history ++ [text]), hsame, ?_⟩
  unfold Server.take Server.takeLoop
  rw [hinbox, List.nil_append, hfront]
  dsimp only
  rw [if_pos hmode, takeLoop_nil _ (by exact hinbox)]

lemma take_line (policy : Policy) (hinbox : sv.inbox = []) (hmode : sv.mode ≠ .data)
    (hc : LF ∉ c) :
    ∃ reply : Reply, sv.take policy (SmtpDialog.line c) = (sv.command c reply.code, [reply]) := by
  have hnext : (if sv.mode = .data then receive (c ++ CRLF) else nextLine (c ++ CRLF)) =
      some (c, []) := by
    rw [if_neg hmode]
    simpa using nextLine_append (search_crlf_of_not_mem hc) (t := [])
  refine ⟨policy (sv.history ++ [c]), ?_⟩
  unfold Server.take Server.takeLoop
  rw [line_of_not_mem hc, hinbox, List.nil_append, hnext]
  dsimp only
  rw [if_neg hmode, takeLoop_nil _ (by rw [inbox_command, hinbox])]

/-- `QUIT` makes no difference for what has been accepted, not even within a text. -/
lemma accepted_take_quit (policy : Policy) (hinbox : sv.inbox = []) :
    (sv.take policy (SmtpDialog.line (ascii "QUIT"))).1.accepted = sv.accepted := by
  by_cases hmode : sv.mode = .data
  · have hnone : (if sv.mode = .data then receive (SmtpDialog.line (ascii "QUIT"))
        else nextLine (SmtpDialog.line (ascii "QUIT"))) = none := by
      rw [if_pos hmode]
      decide
    unfold Server.take Server.takeLoop
    rw [hinbox, List.nil_append, hnone]
  · obtain ⟨reply, htake⟩ := take_line policy hinbox hmode (c := ascii "QUIT") (by decide)
    rw [htake, accepted_command]

/-! ### A command -/

/-- Of a server that is waiting for a line. -/
structure Ready (sv : Server) : Prop where
  inbox : sv.inbox = []
  mode : sv.mode ≠ .data
  accepted : sv.accepted = []

/-- All that has arrived has been read, and this holds of the server. -/
def Behind (policy : Policy) (Q : Server → Prop) (s : State) : Prop :=
  Quiet s ∧ Q (serve policy s.socket.written)

/-- What becomes of a server by a line for which the mailer has got this code. -/
def Taken (Q : Server → Prop) (c : QByteArray) (code : ℤ) (sv' : Server) : Prop :=
  ∃ sv, Q sv ∧ (sv' = sv ∧ code = -1 ∨
    ∃ reply : Reply, sv' = sv.command c reply.code ∧ (code = reply.code ∨ code = 0))

lemma cmd_eq (peer : Peer) (c : QByteArray) (s : State) :
    cmd peer c s =
      match s.socket.write peer (SmtpDialog.line c) with
      | some socket => SmtpDialog.read { s with socket := socket, lastResponse := [] }
      | none => .ok ⟨-1, [], []⟩ { s with lastResponse := [] } := by
  change (EStateM.bind (write peer c) _ : Act Received) { s with lastResponse := [] } = _
  unfold EStateM.bind
  rw [write_eq]
  cases s.socket.write peer (SmtpDialog.line c) <;> rfl

variable {Q : Server → Prop} {exc : Unit → State → Prop}

lemma outcome_cmd (hpeer : Serves policy peer) {s : State} (hs : Quiet s) {sv' : Server}
    {reply : Reply}
    (htake : (serve policy s.socket.written).take policy (SmtpDialog.line c) = (sv', [reply])) :
    Outcome (fun (r : Received) s' => Quiet s' ∧
      (s'.socket.written = s.socket.written ∧ r.code = -1 ∨
        ∃ w : Written, w.bytes = SmtpDialog.line c ∧
          s'.socket.written = s.socket.written ++ [w] ∧
          (r.code = reply.code ∨ r.code = 0 ∧ peer.answer s'.socket.written = some [])))
      exc (cmd peer c s) := by
  rw [cmd_eq]
  cases hwrite : s.socket.write peer (SmtpDialog.line c) with
  | none => exact ⟨hs, .inl ⟨rfl, rfl⟩⟩
  | some socket =>
    obtain ⟨pieces, hanswer, hsocket⟩ := Option.map_eq_some_iff.mp hwrite
    have harrives := hpeer.answer _ _ _ hanswer
    rw [htake, List.flatMap_singleton] at harrives
    have hbuffer : socket.buffer = [] := by rw [← hsocket, hs.1]
    have harriving : socket.arriving = pieces := by rw [← hsocket, hs.2, List.nil_append]
    rw [← harriving] at harrives hanswer
    obtain ⟨received, s', hread, hquiet, hwritten, hcode⟩ :=
      read_reply reply (s := { s with socket := socket, lastResponse := [] }) hbuffer harrives
    have hall : s'.socket.written =
        s.socket.written ++ [⟨s.socket.encrypted, SmtpDialog.line c⟩] := by
      rw [hwritten, ← hsocket]
    dsimp only
    rw [hread]
    refine ⟨hquiet, .inr ⟨_, rfl, hall, hcode.imp_right fun ⟨hzero, hnil⟩ => ⟨hzero, ?_⟩⟩⟩
    rw [hall, hanswer, hnil]

lemma triple_cmd (hpeer : Serves policy peer) (hc : LF ∉ c) (hQ : ∀ sv, Q sv → Ready sv) :
    Triple (Behind policy Q) (cmd peer c) (fun r => Behind policy (Taken Q c r.code)) exc := by
  rintro s ⟨hquiet, hs⟩
  obtain ⟨reply, htake⟩ := take_line policy (hQ _ hs).inbox (hQ _ hs).mode hc
  refine (outcome_cmd hpeer hquiet htake).imp ?_ fun _ _ h => h
  rintro r s' ⟨hquiet', ⟨hwritten, hcode⟩ | ⟨w, hw, hwritten, hcode⟩⟩
  · exact ⟨hquiet', _, hs, .inl ⟨by rw [hwritten], hcode⟩⟩
  · refine ⟨hquiet', _, hs, .inr ⟨reply, ?_, hcode.imp_right And.left⟩⟩
    rw [hwritten, serve_concat, hw, htake]

lemma Behind.imp {Q' : Server → Prop} {s : State} (h : Behind policy Q s)
    (hQ : ∀ sv, Q sv → Q' sv) : Behind policy Q' s := ⟨h.1, hQ _ h.2⟩

/-- What a code says of the mode of the server. -/
structure Replied (code : ℤ) (sv : Server) : Prop where
  ready : Ready sv
  authenticating : code = 334 → sv.mode = .authenticating
  command : 100 ≤ code → code ≠ 334 → sv.mode = .command

/-- The server is ready, for a command if so far all is well. -/
structure Waiting (ok : Bool) (sv : Server) : Prop where
  ready : Ready sv
  command : ok → sv.mode = .command

lemma Ready.mode_command (h : Ready sv) (hdata : c ≠ ascii "DATA" ∨ sv.mode = .authenticating)
    (code : ℕ) :
    (sv.command c code).mode = if code = 334 then .authenticating else .command := by
  have hmode := h.mode
  unfold Server.command
  dsimp only
  cases hm : sv.mode with
  | data => exact absurd hm hmode
  | authenticating => rw [if_pos (.inl rfl)]
  | command =>
    have hne : c ≠ ascii "DATA" := hdata.resolve_right (by rw [hm]; exact Mode.noConfusion)
    by_cases hcode : code = 334
    · rw [if_pos (.inr hcode)]
    · rw [if_neg (not_or.mpr ⟨Mode.noConfusion, hcode⟩), if_neg hne, if_neg hcode]
      split_ifs <;> rfl

lemma Ready.command (h : Ready sv) (hdata : c ≠ ascii "DATA" ∨ sv.mode = .authenticating)
    (code : ℕ) : Ready (sv.command c code) := by
  refine ⟨by rw [inbox_command, h.inbox], ?_, by rw [accepted_command, h.accepted]⟩
  rw [h.mode_command hdata]
  split <;> exact Mode.noConfusion

lemma triple_replied (hpeer : Serves policy peer) (hc : LF ∉ c) (hQ : ∀ sv, Q sv → Ready sv)
    (hdata : ∀ sv, Q sv → c ≠ ascii "DATA" ∨ sv.mode = .authenticating) :
    Triple (Behind policy Q) (cmd peer c) (fun r => Behind policy (Replied r.code)) exc := by
  refine (triple_cmd hpeer hc hQ).imp (fun r s h => h.imp ?_) fun _ _ h => h
  rintro sv' ⟨sv, hsv, ⟨rfl, hcode⟩ | ⟨reply, rfl, hcode⟩⟩
  · exact ⟨hQ _ hsv, by omega, by omega⟩
  · have hmode := (hQ _ hsv).mode_command (hdata _ hsv) reply.code
    refine ⟨(hQ _ hsv).command (hdata _ hsv) _, fun h => ?_, fun h hne => ?_⟩
    · rw [hmode, if_pos (by omega)]
    · rw [hmode, if_neg (by omega)]

lemma triple_waiting {code n : ℤ} (hn : 100 ≤ n) (hne : n ≠ 334) :
    Triple (Behind policy (Replied code)) (pure (decide (code = n)) : Act Bool)
      (fun ok => Behind policy (Waiting ok)) exc := by
  intro s hs
  refine hs.imp fun sv hsv => ⟨hsv.ready, fun hok => ?_⟩
  have hcode := of_decide_eq_true hok
  exact hsv.command (by omega) (by omega)

lemma triple_false {code : ℤ} :
    Triple (Behind policy (Replied code)) (pure false : Act Bool)
      (fun ok => Behind policy (Waiting ok)) exc :=
  fun _ hs => hs.imp fun _ hsv => ⟨hsv.ready, fun hok => absurd hok Bool.false_ne_true⟩

lemma ne_data (h : 4 < c.length) : c ≠ ascii "DATA" := by
  rintro rfl
  exact absurd h (by decide)

lemma ne_rset (h : 4 < c.length) : c ≠ ascii "RSET" := by
  rintro rfl
  exact absurd h (by decide)

/-! ### The commands in front of the message -/

variable {m : TSmtpMailer}

lemma triple_cmdEhlo (hpeer : Serves policy peer) (hlocal : LF ∉ m.localAddress) :
    Triple (Behind policy Ready) (cmdEhlo m peer) (fun ok => Behind policy (Waiting ok)) exc := by
  have hc : LF ∉ ehlo m := by
    unfold ehlo
    simp only [List.mem_append, not_or]
    exact ⟨⟨by decide, hlocal⟩, by decide⟩
  have hlong : 4 < (ehlo m).length := by
    simp [ehlo, ascii]
  refine Triple.bind (triple_replied hpeer hc (fun _ h => h) fun _ _ => .inl (ne_data hlong))
    fun r => .ite (fun _ => triple_false) fun hcode => ?_
  refine fun s hs => (?_ : Behind policy (Waiting true) (r.reply.foldl State.extension s))
  unfold Behind Quiet
  rw [socket_extensions]
  refine hs.imp fun sv hsv => ⟨hsv.ready, fun _ => ?_⟩
  have hcode := not_not.mp hcode
  exact hsv.command (by omega) (by omega)

lemma triple_quit (hpeer : Serves policy peer) :
    Triple (Behind policy Ready) (cmdQuit peer) (fun _ => Behind policy Ready) exc :=
  Triple.bind (triple_replied hpeer (by decide) (fun _ h => h) fun _ _ => .inl (by decide))
    fun _ _ hs => hs.imp fun _ hsv => hsv.ready

lemma triple_cmdStartTls (hpeer : Serves policy peer) (hlocal : LF ∉ m.localAddress) :
    Triple (Behind policy Ready) (cmdStartTls m peer) (fun ok => Behind policy (Waiting ok))
      exc := by
  refine Triple.bind (triple_replied hpeer (by decide) (fun _ h => h) fun _ _ => .inl (by decide))
    fun r => .ite (fun _ => triple_false) fun _ => ?_
  have hencrypted : Triple (Behind policy (Replied r.code))
      (modify fun s => { s with socket := { s.socket with encrypted := true } } : Act PUnit)
      (fun _ => Behind policy (Replied r.code)) exc := fun s hs => hs
  refine Triple.bind hencrypted fun _ => .ite (fun _ => triple_false) fun _ => ?_
  refine Triple.bind ((triple_cmdEhlo hpeer hlocal).of_imp fun _ hs => hs.imp fun _ h => h.ready)
    fun ok => .ite (fun hok => ?_) fun hok => ?_
  · rw [hok]
    exact fun _ hs => hs
  · refine Triple.bind ((triple_quit hpeer).of_imp fun _ hs => hs.imp fun _ h => h.ready)
      fun _ _ hs => ?_
    exact hs.imp fun _ h => ⟨h, fun hfalse => absurd hfalse Bool.false_ne_true⟩

lemma lf_not_mem_toBase64 (b : QByteArray) : LF ∉ Base64.toBase64 b := by
  intro hmem
  rcases Base64.mem_toBase64 hmem with hpad | hletter
  · exact absurd hpad (by decide)
  · exact absurd hletter (by decide)

/-- Behind the code 334 a line is not a command. -/
lemma triple_asked (hpeer : Serves policy peer) (b : QByteArray) :
    Triple (Behind policy (Replied 334)) (cmd peer (Base64.toBase64 b))
      (fun r => Behind policy (Replied r.code)) exc :=
  triple_replied hpeer (lf_not_mem_toBase64 b) (fun _ h => h.ready) fun _ h =>
    .inr (h.authenticating rfl)

lemma triple_tryCramMd5 (hpeer : Serves policy peer) :
    Triple (Behind policy Ready) (tryCramMd5 m peer) (fun ok => Behind policy (Waiting ok))
      exc := by
  refine Triple.bind (triple_replied hpeer (by decide) (fun _ h => h) fun _ _ => .inl (by decide))
    fun r => ?_
  split
  · next challenge _ hcode _ =>
    rw [of_decide_eq_true hcode]
    exact Triple.bind (triple_asked hpeer _) fun _ => triple_waiting (by decide) (by decide)
  · exact triple_false

lemma triple_tryLogin (hpeer : Serves policy peer) :
    Triple (Behind policy Ready) (tryLogin m peer) (fun ok => Behind policy (Waiting ok))
      exc := by
  refine Triple.bind (triple_replied hpeer (by decide) (fun _ h => h) fun _ _ => .inl (by decide))
    fun r => .ite (fun _ => triple_false) fun hcode => ?_
  rw [not_not.mp hcode]
  refine Triple.bind (triple_asked hpeer _) fun r => .ite (fun _ => triple_false) fun hcode => ?_
  rw [not_not.mp hcode]
  exact Triple.bind (triple_asked hpeer _) fun _ => triple_waiting (by decide) (by decide)

lemma triple_tryPlain (hpeer : Serves policy peer) :
    Triple (Behind policy Ready) (tryPlain m peer) (fun ok => Behind policy (Waiting ok))
      exc := by
  have hlong (b : QByteArray) : 4 < (ascii "AUTH PLAIN " ++ Base64.toBase64 b).length := by
    have hfront : (ascii "AUTH PLAIN ").length = 11 := by decide
    rw [List.length_append]
    omega
  refine Triple.bind (triple_replied hpeer ?_ (fun _ h => h) fun _ _ => .inl (ne_data (hlong _)))
    fun _ => triple_waiting (by decide) (by decide)
  rw [List.mem_append, not_or]
  exact ⟨by decide, lf_not_mem_toBase64 _⟩

lemma triple_orTry {method : String} {attempt : Act Bool} {res : Bool}
    (h : Triple (Behind policy Ready) attempt (fun ok => Behind policy (Waiting ok)) exc) :
    Triple (Behind policy (Waiting res)) (orTry method attempt res)
      (fun ok => Behind policy (Waiting ok)) exc := by
  refine Triple.get_bind fun s hs => ?_
  split
  · exact h s (hs.imp fun _ h => h.ready)
  · exact hs

lemma triple_cmdAuth (hpeer : Serves policy peer) :
    Triple (Behind policy (Waiting true)) (cmdAuth m peer)
      (fun ok => Behind policy (Waiting ok)) exc := by
  have hfalse {s : State} (hs : Behind policy (Waiting true) s) :
      Behind policy (Waiting false) s :=
    hs.imp fun _ h => ⟨h.ready, fun hfalse => absurd hfalse Bool.false_ne_true⟩
  have hmethods : Triple (Behind policy (Waiting false)) (do
      let res ← orTry "CRAM-MD5" (tryCramMd5 m peer) false
      let res ← orTry "LOGIN" (tryLogin m peer) res
      orTry "PLAIN" (tryPlain m peer) res) (fun ok => Behind policy (Waiting ok)) exc :=
    .bind (triple_orTry (triple_tryCramMd5 hpeer)) fun _ =>
      .bind (triple_orTry (triple_tryLogin hpeer)) fun _ => triple_orTry (triple_tryPlain hpeer)
  refine Triple.get_bind fun s hs => ?_
  split
  · exact hs
  · split
    · exact hfalse hs
    · exact hmethods s (hfalse hs)

lemma triple_cmdRset (hpeer : Serves policy peer) :
    Triple (Behind policy (Waiting true)) (cmdRset peer)
      (fun ok => Behind policy (Waiting ok)) exc :=
  Triple.bind (triple_replied hpeer (by decide) (fun _ h => h.ready) fun _ _ => .inl (by decide))
    fun _ => triple_waiting (by decide) (by decide)

/-! ### The message -/

/-- Nothing is held, and nothing has been accepted. -/
def Silent (sv : Server) : Prop := sv.inbox = [] ∧ sv.accepted = []

lemma Ready.silent (h : Ready sv) : Silent sv := ⟨h.inbox, h.accepted⟩

lemma Silent.command (h : Silent sv) (code : ℕ) : Silent (sv.command c code) :=
  ⟨by rw [inbox_command, h.1], by rw [accepted_command, h.2]⟩

/-- The envelope, as far as it has been taken. -/
structure Envelope (sender : QByteArray) (recipients : List QByteArray) (sv : Server) : Prop where
  ready : Ready sv
  mode : sv.mode = .command
  sender_eq : sv.sender = sender
  recipients_eq : sv.recipients = recipients

/-- Behind a command, whether it has been done or not. -/
def Ends (policy : Policy) (Q : Server → Prop) (ok : Bool) (s : State) : Prop :=
  if ok then Behind policy Q s else Behind policy Silent s

lemma Ends.silent {code n : ℤ} {s : State} (h : Ends policy Q (decide (code = n)) s)
    (hcode : code ≠ n) : Behind policy Silent s := by
  unfold Ends at h
  rwa [if_neg (by simpa using hcode)] at h

lemma Ends.behind {code n : ℤ} {s : State} (h : Ends policy Q (decide (code = n)) s)
    (hcode : code = n) : Behind policy Q s := by
  unfold Ends at h
  rwa [if_pos (by simpa using hcode)] at h

lemma silent_taken (hQ : ∀ sv, Q sv → Ready sv) {code : ℤ} (h : Taken Q c code sv) :
    Silent sv := by
  obtain ⟨sv', hsv, ⟨rfl, -⟩ | ⟨reply, rfl, -⟩⟩ := h
  · exact (hQ _ hsv).silent
  · exact (hQ _ hsv).silent.command _

lemma triple_expect (hpeer : Serves policy peer) {Q' : Server → Prop} {n : ℕ} (hn : 100 ≤ n)
    (hc : LF ∉ c) (hQ : ∀ sv, Q sv → Ready sv) (h : ∀ sv, Q sv → Q' (sv.command c n)) :
    Triple (Behind policy Q) (cmd peer c)
      (fun r s => Ends policy Q' (decide (r.code = n)) s) exc := by
  refine (triple_cmd hpeer hc hQ).imp (fun r s hs => ?_) fun _ _ h => h
  unfold Ends
  split
  · next hcode =>
    refine hs.imp ?_
    have hcode := of_decide_eq_true hcode
    rintro sv' ⟨sv, hsv, ⟨rfl, hlost⟩ | ⟨reply, rfl, hreply⟩⟩
    · omega
    · obtain rfl : reply.code = n := by omega
      exact h sv hsv
  · exact hs.imp fun _ => silent_taken hQ

lemma command_address (hmode : sv.mode = .command) (hlong : 4 < c.length)
    (hehlo : (ascii "EHLO ").isPrefixOf c = false) :
    sv.command c 250 =
      if (ascii "MAIL FROM:<").isPrefixOf c then
        { sv with
          history := sv.history ++ [c], sender := (c.drop 11).dropLast, recipients := [] }
      else if (ascii "RCPT TO:<").isPrefixOf c then
        { sv with
          history := sv.history ++ [c]
          recipients := sv.recipients ++ [(c.drop 9).dropLast] }
      else { sv with history := sv.history ++ [c] } := by
  have hrset : ¬ (c = ascii "RSET" ∨ (ascii "EHLO ").isPrefixOf c = true) := by
    rw [hehlo]
    exact not_or.mpr ⟨ne_rset hlong, Bool.false_ne_true⟩
  unfold Server.command
  dsimp only
  rw [if_neg (by rw [hmode]; decide), if_neg (ne_data hlong), if_neg (not_not.mpr rfl),
    if_neg hrset]

lemma envelope_mailFrom (h : Waiting true sv) (address : QByteArray) :
    Envelope address [] (sv.command (mailFrom address) 250) := by
  have hlong : 4 < (mailFrom address).length := by simp [mailFrom, ascii]
  have hready := h.ready.command (.inl (ne_data hlong)) 250
  have hmode := h.ready.mode_command (.inl (ne_data hlong)) 250
  have hfront : (ascii "MAIL FROM:<").isPrefixOf (mailFrom address) = true := by
    refine List.isPrefixOf_iff_prefix.mpr ⟨address ++ ascii ">", ?_⟩
    rw [mailFrom, List.append_assoc]
  have haddress : ((mailFrom address).drop 11).dropLast = address := by
    change (address ++ [62]).dropLast = address
    exact List.dropLast_concat
  have hcommand := command_address (h.command rfl) hlong rfl
  rw [if_pos hfront, haddress] at hcommand
  exact ⟨hready, hmode, by rw [hcommand], by rw [hcommand]⟩

lemma envelope_rcptTo {sender : QByteArray} {recipients : List QByteArray}
    (h : Envelope sender recipients sv) (address : QByteArray) :
    Envelope sender (recipients ++ [address]) (sv.command (rcptTo address) 250) := by
  have hlong : 4 < (rcptTo address).length := by simp [rcptTo, ascii]
  have hready := h.ready.command (.inl (ne_data hlong)) 250
  have hmode := h.ready.mode_command (.inl (ne_data hlong)) 250
  have hmail : ¬ (ascii "MAIL FROM:<").isPrefixOf (rcptTo address) = true :=
    Bool.eq_false_iff.mp rfl
  have hfront : (ascii "RCPT TO:<").isPrefixOf (rcptTo address) = true := by
    refine List.isPrefixOf_iff_prefix.mpr ⟨address ++ ascii ">", ?_⟩
    rw [rcptTo, List.append_assoc]
  have haddress : ((rcptTo address).drop 9).dropLast = address := by
    change (address ++ [62]).dropLast = address
    exact List.dropLast_concat
  have hcommand := command_address h.mode hlong rfl
  rw [if_neg hmail, if_pos hfront, haddress] at hcommand
  exact ⟨hready, hmode, by rw [hcommand]; exact h.sender_eq, by rw [hcommand, h.recipients_eq]⟩

lemma triple_cmdMail (hpeer : Serves policy peer) {address : QByteArray} (hlf : LF ∉ address) :
    Triple (Behind policy (Waiting true)) (cmdMail peer address)
      (fun ok s => Ends policy (Envelope address []) ok s) exc := by
  have hc : LF ∉ mailFrom address := by
    simp only [mailFrom, List.mem_append, not_or]
    exact ⟨⟨by decide, hlf⟩, by decide⟩
  refine .ite (fun _ s hs => ?_) fun _ => Triple.bind (triple_expect hpeer (by decide) hc
    (fun _ h => h.ready) fun sv hsv => ?_) fun _ _ hs => hs
  · exact hs.imp fun _ h => h.ready.silent
  · exact envelope_mailFrom hsv address

lemma triple_rcptLoop (hpeer : Serves policy peer) {address : QByteArray}
    {addresses recipients : List QByteArray} (hlf : ∀ a ∈ addresses, LF ∉ a) :
    Triple (Behind policy (Envelope address recipients)) (rcptLoop peer addresses)
      (fun ok s => Ends policy (Envelope address (recipients ++ addresses)) ok s) exc := by
  induction addresses generalizing recipients with
  | nil =>
    intro s hs
    rw [List.append_nil]
    exact hs
  | cons a addresses ih =>
    obtain ⟨ha, hrest⟩ := List.forall_mem_cons.mp hlf
    have hc : LF ∉ rcptTo a := by
      simp only [rcptTo, List.mem_append, not_or]
      exact ⟨⟨by decide, ha⟩, by decide⟩
    refine Triple.bind (triple_expect hpeer (by decide) hc (fun _ h => h.ready) fun sv hsv =>
      envelope_rcptTo hsv a) fun r => .ite (fun hcode s hs => hs.silent hcode) fun hcode => ?_
    have ih := @ih (recipients ++ [a]) hrest
    rw [List.append_assoc] at ih
    exact ih.of_imp fun s hs => hs.behind (not_not.mp hcode)

lemma triple_cmdRcpt (hpeer : Serves policy peer) {address : QByteArray}
    {addresses : List QByteArray} (hlf : ∀ a ∈ addresses, LF ∉ a) :
    Triple (Behind policy (Envelope address [])) (cmdRcpt peer addresses)
      (fun ok s => Ends policy (Envelope address addresses) ok s) exc :=
  .ite (fun _ _ hs => hs.imp fun _ h => h.ready.silent) fun _ => triple_rcptLoop hpeer hlf

variable {mail : TMailMessage}

/-- The mail, and no other, has been accepted. -/
def Accepts (mail : TMailMessage) (sv : Server) : Prop :=
  ∃ text, UpToCRLF text mail.message ∧
    sv.accepted = [⟨mail.fromAddress, mail.recipients, text⟩]

/-- Nothing has come back on the text of the mail. -/
def Unanswered (peer : Peer) (mail : TMailMessage) (written : List Written) : Prop :=
  ∃ before w, before ++ [w] <+: written ∧ w.bytes = sent mail.message ∧
    peer.answer (before ++ [w]) = some []

/-- The mail has not been accepted, or the mailer cannot know it. -/
def Fails (policy : Policy) (peer : Peer) (mail : TMailMessage) (written : List Written) : Prop :=
  (serve policy written).accepted = [] ∨
    Accepts mail (serve policy written) ∧ Unanswered peer mail written

/-- A failure before QUIT. -/
def Stopped (policy : Policy) (peer : Peer) (mail : TMailMessage) (s : State) : Prop :=
  (serve policy s.socket.written).inbox = [] ∧ Fails policy peer mail s.socket.written

lemma stopped_of_silent {s : State} (h : Behind policy Silent s) :
    Stopped policy peer mail s := ⟨h.2.1, .inl h.2.2⟩

lemma triple_cmdQuit (P P' : List Written → Prop) (h : ∀ written, P written → P' written)
    (hquit : ∀ written e, P written → P' (written ++ [⟨e, SmtpDialog.line (ascii "QUIT")⟩])) :
    Triple (fun s => P s.socket.written) (cmdQuit peer) (fun _ s => P' s.socket.written) exc := by
  have hcmd : Triple (fun s => P s.socket.written) (cmd peer (ascii "QUIT"))
      (fun _ s => P' s.socket.written) exc := by
    intro s hs
    rw [cmd_eq]
    cases hwrite : s.socket.write peer (SmtpDialog.line (ascii "QUIT")) with
    | none => exact h _ hs
    | some socket =>
      obtain ⟨pieces, -, hsocket⟩ := Option.map_eq_some_iff.mp hwrite
      change P' (readLoop (turns socket + 1) 0 [] socket).2.written
      rw [(frame_readLoop ..).1, ← hsocket]
      exact hquit _ _ hs
  exact Triple.bind hcmd fun _ _ hs => hs

/-- A server that is waiting for the text of a mail. -/
structure Receiving (mail : TMailMessage) (sv : Server) : Prop where
  inbox : sv.inbox = []
  mode : sv.mode = .data
  accepted : sv.accepted = []
  sender_eq : sv.sender = mail.fromAddress
  recipients_eq : sv.recipients = mail.recipients

lemma receiving_data (h : Envelope mail.fromAddress mail.recipients sv) :
    Receiving mail (sv.command (ascii "DATA") 354) := by
  have hcommand : sv.command (ascii "DATA") 354 =
      { sv with history := sv.history ++ [ascii "DATA"], mode := .data } := by
    unfold Server.command
    dsimp only
    rw [if_neg (by rw [h.mode]; decide), if_pos rfl, if_pos rfl]
  rw [hcommand]
  exact ⟨h.ready.inbox, rfl, h.ready.accepted, h.sender_eq, h.recipients_eq⟩

lemma line_sent (message : QByteArray) : SmtpDialog.line (sent message) = sent message :=
  if_pos (List.isSuffixOf_iff_suffix.mpr ⟨message ++ CRLF ++ [DOT], rfl⟩)

lemma triple_text (hpeer : Serves policy peer) (hdot : ¬ Dotted mail.message) :
    Triple (Behind policy (Receiving mail)) (cmd peer (sent mail.message))
      (fun r s => if decide (r.code = 250) then
        (serve policy s.socket.written).inbox = [] ∧ Accepts mail (serve policy s.socket.written)
        else Stopped policy peer mail s) exc := by
  rintro s ⟨hquiet, hs⟩
  obtain ⟨text, reply, hsame, htake⟩ := take_sent policy hs.inbox hs.mode hdot
  rw [← line_sent] at htake
  refine (outcome_cmd hpeer hquiet htake).imp ?_ fun _ _ h => h
  rintro r s' ⟨-, ⟨hwritten, hlost⟩ | ⟨w, hw, hwritten, hcode⟩⟩
  · rw [if_neg (by simp [hlost])]
    unfold Stopped Fails
    rw [hwritten]
    exact ⟨hs.inbox, .inl hs.accepted⟩
  · have hserve : serve policy s'.socket.written =
        (serve policy s.socket.written).text text reply.code := by
      rw [hwritten, serve_concat, hw, htake]
    have haccepted : reply.code = 250 → Accepts mail (serve policy s'.socket.written) := by
      intro hreply
      refine ⟨text, hsame, ?_⟩
      rw [hserve, Server.text, if_pos hreply, hs.accepted, hs.sender_eq, hs.recipients_eq]
      rfl
    have hrefused : reply.code ≠ 250 → (serve policy s'.socket.written).accepted = [] := by
      intro hreply
      rw [hserve, Server.text, if_neg hreply, hs.accepted]
    have hinbox : (serve policy s'.socket.written).inbox = [] := by
      rw [hserve]
      exact hs.inbox
    split
    · next hok =>
      have hok := of_decide_eq_true hok
      exact ⟨hinbox, haccepted (by omega)⟩
    · next hfails =>
      refine ⟨hinbox, ?_⟩
      by_cases hreply : reply.code = 250
      · -- the mail has been accepted, so nothing has come back
        obtain hcode | ⟨-, hanswer⟩ := hcode
        · exact absurd (by simp [hcode, hreply]) hfails
        · rw [hwritten] at hanswer
          refine .inr ⟨haccepted hreply, s.socket.written, w, ?_, ?_, hanswer⟩
          · rw [hwritten]
          · rw [hw, line_sent]
      · exact .inl (hrefused hreply)

lemma triple_cmdData (hpeer : Serves policy peer) (hdot : ¬ Dotted mail.message) :
    Triple (Behind policy (Envelope mail.fromAddress mail.recipients)) (cmdData peer mail.message)
      (fun ok s => if ok then
        (serve policy s.socket.written).inbox = [] ∧ Accepts mail (serve policy s.socket.written)
        else Stopped policy peer mail s) exc := by
  refine Triple.bind (triple_expect hpeer (by decide) (by decide) (fun _ h => h.ready) fun sv hsv =>
    receiving_data hsv) fun r => .ite (fun hcode s hs => ?_) fun hcode => ?_
  · exact stopped_of_silent (hs.silent hcode)
  · have htext : Triple (Behind policy (Receiving mail))
        (cmd peer (sent mail.message) >>= fun r => pure (decide (r.code = 250)))
        (fun ok s => if ok then (serve policy s.socket.written).inbox = [] ∧
          Accepts mail (serve policy s.socket.written) else Stopped policy peer mail s) exc :=
      .bind (triple_text hpeer hdot) fun _ _ hs => hs
    exact htext.of_imp fun s hs => hs.behind (not_not.mp hcode)

/-! ### The dialog -/

/-- What is thrown. -/
def Failed (policy : Policy) (peer : Peer) (mail : TMailMessage) (_ : Unit) (s : State) : Prop :=
  Fails policy peer mail s.socket.written

lemma fails_quit {written : List Written} (e : Bool) (hinbox : (serve policy written).inbox = [])
    (h : Fails policy peer mail written) :
    Fails policy peer mail (written ++ [⟨e, SmtpDialog.line (ascii "QUIT")⟩]) := by
  have haccepted := accepted_take_quit policy hinbox
  unfold Fails Accepts
  rw [serve_concat, haccepted]
  refine h.imp_right (And.imp_right ?_)
  rintro ⟨before, w, hbefore, hw⟩
  exact ⟨before, w, hbefore.trans (List.prefix_append _ _), hw⟩

lemma triple_orQuit {pre post : State → Prop} {command : Act Bool}
    (h : Triple pre command (fun ok s => if ok then post s else Stopped policy peer mail s)
      (Failed policy peer mail)) :
    Triple pre (orQuit peer command) (fun _ => post) (Failed policy peer mail) := by
  refine Triple.bind h fun ok => .ite (fun hok s hs => ?_) fun hok => ?_
  · rwa [if_pos hok] at hs
  · have hquit : Triple (Stopped policy peer mail) (cmdQuit peer)
        (fun _ => Failed policy peer mail ()) (Failed policy peer mail) :=
      triple_cmdQuit
        (fun written => (serve policy written).inbox = [] ∧ Fails policy peer mail written)
        (Fails policy peer mail) (fun _ h => h.2) fun _ e h => fails_quit e h.1 h.2
    refine Triple.bind (hquit.of_imp fun s hs => ?_) fun _ _ hs => hs
    rwa [if_neg hok] at hs

lemma triple_orQuit_ends {pre : State → Prop} {command : Act Bool}
    (h : Triple pre command (Ends policy Q) (Failed policy peer mail)) :
    Triple pre (orQuit peer command) (fun _ => Behind policy Q) (Failed policy peer mail) := by
  refine triple_orQuit (h.imp (fun ok s hs => ?_) fun _ _ h => h)
  cases ok with
  | false => exact stopped_of_silent hs
  | true => exact hs

lemma triple_orQuit_waiting {pre : State → Prop} {command : Act Bool}
    (h : Triple pre command (fun ok => Behind policy (Waiting ok)) (Failed policy peer mail)) :
    Triple pre (orQuit peer command) (fun _ => Behind policy (Waiting true))
      (Failed policy peer mail) := by
  refine triple_orQuit_ends (h.imp (fun ok s hs => ?_) fun _ _ h => h)
  cases ok with
  | false => exact hs.imp fun _ h => h.ready.silent
  | true => exact hs

lemma triple_orQuitIf {a : Bool} {command : Act Bool}
    (h : Triple (Behind policy (Waiting true)) command (fun ok => Behind policy (Waiting ok))
      (Failed policy peer mail)) :
    Triple (Behind policy (Waiting true)) (orQuitIf peer a command)
      (fun _ => Behind policy (Waiting true)) (Failed policy peer mail) :=
  .ite (fun _ => triple_orQuit_waiting h) fun _ _ hs => hs

lemma failed_of_waiting {ok : Bool} {s : State} (hs : Behind policy (Waiting ok) s) :
    Failed policy peer mail () s := .inl hs.2.ready.accepted

lemma triple_require {p : Bool} :
    Triple (Behind policy (Waiting true)) (require p) (fun _ => Behind policy (Waiting true))
      (Failed policy peer mail) :=
  .ite (fun _ _ hs => hs) fun _ _ hs => failed_of_waiting hs

lemma waiting_start : Waiting true {} := ⟨⟨rfl, Mode.noConfusion, rfl⟩, fun _ => rfl⟩

lemma triple_connectToHost (hpeer : Serves policy peer) :
    Triple (fun s => s.socket = {}) (connectToHost peer)
      (fun _ => Behind policy (Waiting true)) exc := by
  unfold connectToHost
  split
  · next pieces hconnected =>
    obtain ⟨reply, harrives⟩ := hpeer.connected pieces hconnected
    have hmodify : Triple (fun s => s.socket = {})
        (modify fun s =>
          { s with socket := { s.socket with arriving := s.socket.arriving ++ pieces } } :
          Act PUnit)
        (fun _ s => s.socket = { arriving := pieces }) exc :=
      .modify fun s hs =>
        congrArg (fun t : QSslSocket => { t with arriving := t.arriving ++ pieces }) hs
    have hread : Triple (fun s => s.socket = { arriving := pieces }) SmtpDialog.read
        (fun _ => Behind policy (Waiting true)) exc := by
      intro s hs
      obtain ⟨received, s', hread, hquiet, hwritten, -⟩ :=
        read_reply reply (s := s) (by rw [hs]) (by rw [hs]; exact harrives)
      rw [hread]
      refine ⟨hquiet, ?_⟩
      rw [hwritten, hs]
      exact waiting_start
    exact .bind hmodify fun _ => .bind hread fun _ _ hs => hs
  · intro s hs
    refine ⟨?_, ?_⟩
    · rw [Quiet, hs]
      exact ⟨rfl, rfl⟩
    · rw [hs]
      exact waiting_start

lemma triple_deliver (hpeer : Serves policy peer) (hfrom : LF ∉ mail.fromAddress)
    (hrecipients : ∀ a ∈ mail.recipients, LF ∉ a) (hdot : ¬ Dotted mail.message) :
    Triple (Behind policy (Waiting true)) (deliver m peer mail)
      (fun _ s => Accepts mail (serve policy s.socket.written)) (Failed policy peer mail) := by
  refine Triple.bind (triple_orQuitIf (triple_cmdAuth hpeer)) fun _ => ?_
  refine Triple.bind (triple_orQuit_waiting (triple_cmdRset hpeer)) fun _ => ?_
  refine Triple.bind (triple_orQuit_ends (triple_cmdMail hpeer hfrom)) fun _ => ?_
  refine Triple.bind (triple_orQuit_ends (triple_cmdRcpt hpeer hrecipients)) fun _ => ?_
  refine Triple.bind (triple_orQuit (triple_cmdData hpeer hdot)) fun _ => ?_
  refine Triple.bind (triple_cmdQuit
    (fun written => (serve policy written).inbox = [] ∧ Accepts mail (serve policy written))
    (fun written => Accepts mail (serve policy written)) (fun _ h => h.2) fun _ e h => ?_)
    fun _ _ hs => hs
  unfold Accepts
  rw [serve_concat, accepted_take_quit policy h.1]
  exact h.2

/-! ### A server of which every reply arrives -/

/-- The replies arrive line by line. -/
def answering (policy : Policy) (greeting : Reply) : Peer where
  connected := some greeting.lines
  answer written := some ((((serve policy written.dropLast).take policy
    (written.getLast?.elim [] Written.bytes)).2).flatMap Reply.lines)
  waitForEncrypted := true

lemma arrives_lines (lines : List QByteArray) : Arrives lines lines := by
  refine ⟨lines.map fun l => [l], ?_, ?_, ?_⟩
  · simp [Function.comp_def]
  · simp
  · rw [← List.flatMap_def, List.flatMap_singleton']

lemma serves_answering (policy : Policy) (greeting : Reply) :
    Serves policy (answering policy greeting) := by
  refine ⟨fun pieces h => ⟨greeting, ?_⟩, fun written w pieces h => ?_⟩
  · rw [← Option.some.inj h]
    exact arrives_lines _
  · rw [← Option.some.inj h, List.dropLast_concat, List.getLast?_concat]
    exact arrives_lines _

def brief (code : ℕ) (h : 100 ≤ code ∧ code < 1000) : Reply :=
  ⟨code, [], [], h.1, h.2, fun _ h => absurd h List.not_mem_nil, List.not_mem_nil⟩

def extensions : Reply :=
  ⟨250, [ascii "mail", ascii "STARTTLS"], ascii "AUTH PLAIN", by decide, by decide, by decide,
    by decide⟩

def samplePolicy : Policy := fun history =>
  let l := history.getLast?.getD []
  if (ascii "EHLO").isPrefixOf l then extensions
  else if l = ascii "STARTTLS" then brief 220 (by decide)
  else if (ascii "AUTH").isPrefixOf l then brief 235 (by decide)
  else if l = ascii "DATA" then brief 354 (by decide)
  else if l = ascii "QUIT" then brief 221 (by decide)
  else brief 250 (by decide)

def sampleMailer : TSmtpMailer where
  smtpHostName := ascii "mail"
  smtpPort := 25
  authEnable := true
  tlsEnable := true
  userName := ascii "u"
  password := ascii "p"
  localAddress := ascii "::1"
  hmacMd5 text _ := text

def sampleMail : TMailMessage where
  fromAddress := ascii "a@b"
  recipients := [ascii "c@d", ascii "e@f"]
  message := ascii "Subject: x" ++ CRLF ++ CRLF ++ ascii "y"

def samplePeer : Peer := answering samplePolicy (brief 220 (by decide))

/-! ### What the mailer knows -/

lemma outcome_send (mail : TMailMessage) (tls : Bool) (methods : List QByteArray)
    (hpeer : Serves policy peer) (hlocal : LF ∉ m.localAddress) (hfrom : LF ∉ mail.fromAddress)
    (hrecipients : ∀ a ∈ mail.recipients, LF ∉ a) (hdot : ¬ Dotted mail.message) :
    Outcome (fun _ s => Accepts mail (serve policy s.socket.written))
      (Failed policy peer mail)
      (send m peer mail { tlsAvailable := tls, svrAuthMethods := methods }) := by
  have hrequire {p : Bool} : Triple (fun s => s.socket = {}) (require p)
      (fun _ s => s.socket = {}) (Failed policy peer mail) := by
    refine .ite (fun _ _ hs => hs) fun _ s hs => .inl ?_
    rw [hs]
    rfl
  refine (?_ : Triple (fun s => s.socket = {}) (send m peer mail) _ (Failed policy peer mail))
    _ rfl
  refine Triple.bind hrequire fun _ => ?_
  refine Triple.bind hrequire fun _ => ?_
  refine Triple.bind hrequire fun _ => ?_
  refine Triple.bind (triple_connectToHost hpeer) fun _ => ?_
  refine Triple.bind triple_require fun _ => ?_
  refine Triple.bind (triple_orQuit_waiting ((triple_cmdEhlo hpeer hlocal).of_imp fun _ hs =>
    hs.imp fun _ h => h.ready)) fun _ => .get_bind fun s hs => ?_
  have htls : Triple (Behind policy (Waiting true))
      (orQuitIf peer (m.tlsEnable && s.tlsAvailable) (cmdStartTls m peer))
      (fun _ => Behind policy (Waiting true)) (Failed policy peer mail) :=
    triple_orQuitIf ((triple_cmdStartTls hpeer hlocal).of_imp fun _ hs => hs.imp fun _ h => h.ready)
  exact Triple.bind htls (fun _ => triple_deliver hpeer hfrom hrecipients hdot) s hs

/-- **The mailer knows what it has sent.** If `send` returns true, the server has accepted the mail
and no other, and once. If it returns false, the server has accepted nothing, or it has accepted the
mail and its reply to the text is what did not arrive. -/
theorem send_accepted (m : TSmtpMailer) (mail : TMailMessage) (tls : Bool)
    (methods : List QByteArray) (hpeer : Serves policy peer) (hlocal : LF ∉ m.localAddress)
    (hfrom : LF ∉ mail.fromAddress) (hrecipients : ∀ a ∈ mail.recipients, LF ∉ a)
    (hdot : ¬ Dotted mail.message) :
    (∀ s, send m peer mail { tlsAvailable := tls, svrAuthMethods := methods } = .ok () s →
      Accepts mail (serve policy s.socket.written)) ∧
    (∀ s, send m peer mail { tlsAvailable := tls, svrAuthMethods := methods } = .error () s →
      Fails policy peer mail s.socket.written) := by
  have h : Outcome _ _ _ := outcome_send mail tls methods hpeer hlocal hfrom hrecipients hdot
  refine ⟨fun s hs => ?_, fun s hs => ?_⟩
  · rw [hs] at h
    exact h
  · rw [hs] at h
    exact h

/-- With TLS and a password. -/
theorem send_accepted_sample :
    ∃ s, send sampleMailer samplePeer sampleMail {} = .ok () s ∧
      Accepts sampleMail (serve samplePolicy s.socket.written) := by
  have hdot : ¬ Dotted sampleMail.message := by
    unfold Dotted
    decide
  have hpeer : Serves samplePolicy samplePeer := serves_answering _ _
  have h := (send_accepted sampleMailer sampleMail false [] hpeer (by decide) (by decide)
    (by decide) hdot).1
  have hreturns : (send sampleMailer samplePeer sampleMail).run' {} = some () := by
    decide +kernel
  cases hr : send sampleMailer samplePeer sampleMail {} with
  | ok u s => exact ⟨s, rfl, h s hr⟩
  | error e s =>
    unfold EStateM.run' EStateM.run at hreturns
    rw [hr] at hreturns
    cases hreturns

end TreeFrog.SmtpServer
