import TreeFrog.Base64
import TreeFrog.Exceptions
import TreeFrog.Hex
import TreeFrog.SmtpMailer

/-!
`TSmtpMailer::send` as a dialog with the other end of the connection. That end may be anything: what
arrives, and in which pieces, depends on all that has been written to it.
-/

namespace TreeFrog.SmtpDialog

open Bytes Search Exceptions Hex Base64
open MailData (DOT)

/-! ### The socket -/

/-- What has been written at once, and whether it has been encrypted. -/
structure Written where
  encrypted : Bool
  bytes : QByteArray
  deriving DecidableEq

/-- The other end: the pieces that arrive when it has been connected to, and behind the last of what
has been written; none if that fails. -/
structure Peer where
  connected : Option (List QByteArray)
  answer : List Written → Option (List QByteArray)
  waitForEncrypted : Bool

structure QSslSocket where
  written : List Written := []
  buffer : QByteArray := []
  arriving : List QByteArray := []
  encrypted : Bool := false

namespace QSslSocket

/-- What is there of the next line. -/
def readLine (s : QSslSocket) : QByteArray × QSslSocket :=
  match search [LF] s.buffer with
  | some i => (s.buffer.take (i + 1), { s with buffer := s.buffer.drop (i + 1) })
  | none => (s.buffer, { s with buffer := [] })

/-- The bytes are written, and what follows them is on its way. -/
def write (peer : Peer) (s : QSslSocket) (bytes : QByteArray) : Option QSslSocket :=
  let written := s.written ++ [⟨s.encrypted, bytes⟩]
  (peer.answer written).map fun pieces =>
    { s with written := written, arriving := s.arriving ++ pieces }

end QSslSocket

/-- What `read` gives: the code, the texts behind the codes, and the last line. -/
structure Received where
  code : ℤ
  reply : List QByteArray
  lastResponse : QByteArray

/-- The code is that of the first line. -/
def addCode (code : ℤ) (rcv : QByteArray) : ℤ := if code = 0 then toInt (rcv.take 3) else code

def addText (reply : List QByteArray) (rcv : QByteArray) : List QByteArray :=
  if rcv.drop 4 = [] then reply else reply ++ [rcv.drop 4]

/-- The loop of `read`. A line that has no text is one that is not there yet. -/
def readLoop : ℕ → ℤ → List QByteArray → QSslSocket → Received × QSslSocket
  | 0, code, reply, s => (⟨code, reply, []⟩, s)
  | fuel + 1, code, reply, s =>
    let rcv := trimmed s.readLine.1
    let s := s.readLine.2
    if rcv = [] then
      match s.arriving with
      | [] => (⟨code, reply, rcv⟩, s)
      | piece :: arriving =>
        readLoop fuel code reply { s with buffer := s.buffer ++ piece, arriving := arriving }
    else
      let code := addCode code rcv
      if rcv.length < 4 then (⟨code, reply, rcv⟩, s)
      else if 0 < code ∧ rcv[3]? = some SP then (⟨code, addText reply rcv, rcv⟩, s)
      else readLoop fuel code (addText reply rcv) s

/-- The turns that there can be: one for each byte that is there or arrives, and for each piece. -/
def turns (s : QSslSocket) : ℕ :=
  s.buffer.length + s.arriving.flatten.length + s.arriving.length

/-! ### The mailer -/

structure TSmtpMailer where
  smtpHostName : QByteArray
  smtpPort : ℕ
  authEnable : Bool
  tlsEnable : Bool
  userName : QByteArray
  password : QByteArray
  localAddress : QByteArray
  /-- `TCryptMac::hash` with `Hmac_Md5`, of a text and a key. -/
  hmacMd5 : QByteArray → QByteArray → QByteArray

/-- What is used of a message: its addresses, and `toByteArray`. -/
structure TMailMessage where
  fromAddress : QByteArray
  recipients : List QByteArray
  message : QByteArray

/-- The socket, and what the mailer keeps, also from one message to the next. -/
structure State where
  socket : QSslSocket := {}
  tlsAvailable : Bool := false
  svrAuthMethods : List QByteArray := []
  lastResponse : QByteArray := []

/-- What is thrown stands for `return false` in `send`. -/
abbrev Act := EStateM Unit State

section
variable (m : TSmtpMailer) (peer : Peer)

/-- A command with its line end. -/
def line (command : QByteArray) : QByteArray :=
  if CRLF.isSuffixOf command then command else command ++ CRLF

def write (command : QByteArray) : Act Bool := do
  let s ← get
  match s.socket.write peer (line command) with
  | some socket =>
    set { s with socket := socket }
    pure true
  | none => pure false

def read : Act Received := do
  let s ← get
  let r := readLoop (turns s.socket + 1) 0 [] s.socket
  set { s with socket := r.2, lastResponse := r.1.lastResponse }
  pure r.1

def cmd (command : QByteArray) : Act Received := do
  modify fun s => { s with lastResponse := [] }
  let written ← write peer command
  if written then read else pure ⟨-1, [], []⟩

def connectToHost : Act Bool :=
  match peer.connected with
  | some pieces => do
    modify fun s => { s with socket := { s.socket with arriving := s.socket.arriving ++ pieces } }
    let r ← read
    pure (r.code = 220)
  | none => pure false

def startsWith (t s : QByteArray) : Bool := (toLower s).isPrefixOf (toLower t)

/-- What a text of the reply to EHLO says. -/
def State.extension (s : State) (text : QByteArray) : State :=
  let s :=
    if startsWith text (ascii "AUTH ") then
      { s with svrAuthMethods := ((text.drop 5).splitOn SP).filter (· ≠ []) }
    else s
  if startsWith text (ascii "STARTTLS") then { s with tlsAvailable := true } else s

def ehlo : QByteArray := ascii "EHLO [" ++ m.localAddress ++ ascii "]"

def cmdEhlo : Act Bool := do
  let r ← cmd peer (ehlo m)
  if r.code ≠ 250 then pure false
  else do
    modify fun s => r.reply.foldl State.extension s
    pure true

def cmdQuit : Act Bool := do
  let r ← cmd peer (ascii "QUIT")
  pure (r.code = 221)

def cmdStartTls : Act Bool := do
  let r ← cmd peer (ascii "STARTTLS")
  if r.code ≠ 220 then pure false
  else do
    modify fun s => { s with socket := { s.socket with encrypted := true } }
    if !peer.waitForEncrypted then pure false
    else do
      let ok ← cmdEhlo m peer
      if ok then pure true
      else do
        let _ ← cmdQuit peer
        pure false

def authCramMd5 (challenge : QByteArray) : QByteArray :=
  toBase64 (m.userName ++ [SP] ++ toHex (m.hmacMd5 (fromBase64 challenge) m.password))

def supports (s : State) (method : String) : Bool :=
  s.svrAuthMethods.any fun a => toLower a = toLower (ascii method)

def tryCramMd5 : Act Bool := do
  let r ← cmd peer (ascii "AUTH CRAM-MD5")
  match decide (r.code = 334), r.reply with
  | true, challenge :: _ =>
    let r ← cmd peer (authCramMd5 m challenge)
    pure (r.code = 235)
  | _, _ => pure false

def tryLogin : Act Bool := do
  let r ← cmd peer (ascii "AUTH LOGIN")
  if r.code ≠ 334 then pure false
  else do
    let r ← cmd peer (toBase64 m.userName)
    if r.code ≠ 334 then pure false
    else do
      let r ← cmd peer (toBase64 m.password)
      pure (r.code = 235)

def tryPlain : Act Bool := do
  let r ← cmd peer
    (ascii "AUTH PLAIN " ++ toBase64 (m.userName ++ [0] ++ m.userName ++ [0] ++ m.password))
  pure (r.code = 235)

/-- The next method, if none before it has succeeded and the server has it. -/
def orTry (method : String) (attempt : Act Bool) (res : Bool) : Act Bool := do
  let s ← get
  if !res && supports s method then attempt else pure res

def cmdAuth : Act Bool := do
  let s ← get
  if s.svrAuthMethods = [] then pure true
  else if m.userName = [] ∨ m.password = [] then pure false
  else do
    let res ← orTry "CRAM-MD5" (tryCramMd5 m peer) false
    let res ← orTry "LOGIN" (tryLogin m peer) res
    orTry "PLAIN" (tryPlain m peer) res

def cmdRset : Act Bool := do
  let r ← cmd peer (ascii "RSET")
  pure (r.code = 250)

def mailFrom (address : QByteArray) : QByteArray := ascii "MAIL FROM:<" ++ address ++ ascii ">"

def cmdMail (address : QByteArray) : Act Bool :=
  if address = [] then pure false
  else do
    let r ← cmd peer (mailFrom address)
    pure (r.code = 250)

def rcptTo (address : QByteArray) : QByteArray := ascii "RCPT TO:<" ++ address ++ ascii ">"

/-- The loop of `cmdRcpt`. -/
def rcptLoop : List QByteArray → Act Bool
  | [] => pure true
  | address :: addresses => do
    let r ← cmd peer (rcptTo address)
    if r.code ≠ 250 then pure false else rcptLoop addresses

def cmdRcpt (addresses : List QByteArray) : Act Bool :=
  if addresses = [] then pure false else rcptLoop peer addresses

def cmdData (message : QByteArray) : Act Bool := do
  let r ← cmd peer (ascii "DATA")
  if r.code ≠ 354 then pure false
  else do
    let r ← cmd peer (message ++ CRLF ++ [DOT] ++ CRLF)
    pure (r.code = 250)

/-- A command of `send`: when it fails, the dialog ends. -/
def orQuit (command : Act Bool) : Act Unit := do
  let ok ← command
  if ok then pure ()
  else do
    let _ ← cmdQuit peer
    throw ()

/-- A command that is sent under a condition. -/
def orQuitIf (c : Bool) (command : Act Bool) : Act Unit :=
  if c then orQuit peer command else pure ()

/-- A condition of `send`. -/
def require (p : Bool) : Act Unit := if p then pure () else throw ()

/-- The last part of `send`. -/
def deliver (mail : TMailMessage) : Act Unit := do
  orQuitIf peer m.authEnable (cmdAuth m peer)
  orQuit peer (cmdRset peer)
  orQuit peer (cmdMail peer mail.fromAddress)
  orQuit peer (cmdRcpt peer mail.recipients)
  orQuit peer (cmdData peer mail.message)
  let _ ← cmdQuit peer
  pure ()

/-- `send`, without POP before SMTP, which makes a connection of its own to another server and
writes the user name and the password there in the clear. -/
def send (mail : TMailMessage) : Act Unit := do
  require (m.smtpHostName ≠ [] && 0 < m.smtpPort)
  require (trimmed mail.fromAddress ≠ [])
  require (mail.recipients ≠ [])
  let connected ← connectToHost peer
  require connected
  orQuit peer (cmdEhlo m peer)
  let s ← get
  orQuitIf peer (m.tlsEnable && s.tlsAvailable) (cmdStartTls m peer)
  deliver m peer mail

end

/-! ### What is written, and whether it is encrypted -/

/-- What a computation is about, apart from what is received. -/
abbrev Says := List Written → Bool → Bool → Prop

def Says.At (P : Says) (s : State) : Prop := P s.socket.written s.socket.encrypted s.tlsAvailable

/-- It holds behind the computation if it does in front. -/
def Keeps (P : Says) {α : Type} (a : Act α) : Prop :=
  Triple P.At a (fun _ => P.At) (fun _ => P.At)

variable {m : TSmtpMailer} {peer : Peer} {P : Says} {α β : Type}

namespace Keeps

lemma pure (a : α) : Keeps P (Pure.pure a) := fun _ hs => hs

lemma throw : Keeps P (MonadExcept.throw () : Act α) := fun _ hs => hs

lemma bind {a : Act α} {f : α → Act β} (ha : Keeps P a) (hf : ∀ x, Keeps P (f x)) :
    Keeps P (a >>= f) := Triple.bind ha hf

lemma ite {c : Prop} [Decidable c] {a b : Act α} (ha : Keeps P a) (hb : Keeps P b) :
    Keeps P (if c then a else b) := Triple.ite (fun _ => ha) fun _ => hb

lemma get_bind {f : State → Act β} (hf : ∀ s, Keeps P (f s)) : Keeps P (get >>= f) :=
  fun s hs => hf s s hs

end Keeps

lemma frame_readLine (s : QSslSocket) :
    s.readLine.2.written = s.written ∧ s.readLine.2.encrypted = s.encrypted := by
  unfold QSslSocket.readLine
  split <;> exact ⟨rfl, rfl⟩

lemma frame_readLoop (fuel : ℕ) (code : ℤ) (reply : List QByteArray) (s : QSslSocket) :
    (readLoop fuel code reply s).2.written = s.written ∧
      (readLoop fuel code reply s).2.encrypted = s.encrypted := by
  induction fuel generalizing code reply s with
  | zero => exact ⟨rfl, rfl⟩
  | succ fuel ih =>
    obtain ⟨hwritten, hencrypted⟩ := frame_readLine s
    unfold readLoop
    dsimp only
    split
    · split
      · exact ⟨hwritten, hencrypted⟩
      · rw [← hwritten, ← hencrypted]
        exact ih ..
    · split
      · exact ⟨hwritten, hencrypted⟩
      · split
        · exact ⟨hwritten, hencrypted⟩
        · rw [← hwritten, ← hencrypted]
          exact ih ..

lemma keeps_read : Keeps P read := by
  intro s hs
  obtain ⟨hwritten, hencrypted⟩ := frame_readLoop (turns s.socket + 1) 0 [] s.socket
  change P (readLoop (turns s.socket + 1) 0 [] s.socket).2.written
    (readLoop (turns s.socket + 1) 0 [] s.socket).2.encrypted s.tlsAvailable
  rw [hwritten, hencrypted]
  exact hs

lemma write_eq (peer : Peer) (command : QByteArray) (s : State) :
    write peer command s =
      match s.socket.write peer (line command) with
      | some socket => .ok true { s with socket := socket }
      | none => .ok false s := by
  change (match s.socket.write peer (line command) with
    | some socket => _
    | none => _ : Act Bool) s = _
  cases s.socket.write peer (line command) with
  | none => rfl
  | some socket => rfl

/-- The command may be written. -/
def Says.Admits (P : Says) (command : QByteArray) : Prop :=
  ∀ written e t, P written e t → P (written ++ [⟨e, line command⟩]) e t

lemma keeps_write {command : QByteArray} (h : P.Admits command) : Keeps P (write peer command) := by
  intro s hs
  rw [write_eq]
  cases hwrite : s.socket.write peer (line command) with
  | none => exact hs
  | some socket =>
    obtain ⟨pieces, -, rfl⟩ := Option.map_eq_some_iff.mp hwrite
    exact h _ _ _ hs

lemma keeps_cmd {command : QByteArray} (h : P.Admits command) : Keeps P (cmd peer command) :=
  .bind (fun _ hs => hs) fun _ => .bind (keeps_write h) fun _ => .ite keeps_read (.pure _)

lemma keeps_require (p : Bool) : Keeps P (require p) := .ite (.pure _) .throw

lemma keeps_connectToHost : Keeps P (connectToHost peer) := by
  unfold connectToHost
  split
  · exact .bind (fun _ hs => hs) fun _ => .bind keeps_read fun _ => .pure _
  · exact .pure _

lemma keeps_cmdQuit (h : P.Admits (ascii "QUIT")) : Keeps P (cmdQuit peer) :=
  .bind (keeps_cmd h) fun _ => .pure _

section
variable (h : ∀ command, P.Admits command)
include h

/-- Only EHLO and STARTTLS change more than what is written. -/
lemma keeps_cmdAuth : Keeps P (cmdAuth m peer) := by
  have hcmd : ∀ command, Keeps P (cmd peer command) := fun command => keeps_cmd (h command)
  have hlast : ∀ command,
      Keeps P (cmd peer command >>= fun r => Pure.pure (decide (r.code = 235))) :=
    fun command => .bind (hcmd command) fun _ => .pure _
  have hcram : Keeps P (tryCramMd5 m peer) := by
    refine .bind (hcmd _) fun r => ?_
    split
    · exact hlast _
    · exact .pure _
  have hlogin : Keeps P (tryLogin m peer) :=
    .bind (hcmd _) fun _ => .ite (.pure _) (.bind (hcmd _) fun _ => .ite (.pure _) (hlast _))
  have htry : ∀ method attempt res, Keeps P attempt → Keeps P (orTry method attempt res) :=
    fun _ _ _ hattempt => .get_bind fun _ => .ite hattempt (.pure _)
  refine .get_bind fun s => .ite (.pure _) (.ite (.pure _) ?_)
  exact .bind (htry _ _ _ hcram) fun _ => .bind (htry _ _ _ hlogin) fun _ => htry _ _ _ (hlast _)

lemma keeps_orQuit {command : Act Bool} (hcommand : Keeps P command) :
    Keeps P (orQuit peer command) :=
  .bind hcommand fun _ => .ite (.pure _) (.bind (keeps_cmdQuit (h _)) fun _ => .throw)

lemma keeps_rcptLoop (addresses : List QByteArray) : Keeps P (rcptLoop peer addresses) := by
  induction addresses with
  | nil => exact .pure _
  | cons address addresses ih => exact .bind (keeps_cmd (h _)) fun _ => .ite (.pure _) ih

lemma keeps_cmdData (message : QByteArray) : Keeps P (cmdData peer message) := by
  unfold cmdData
  exact .bind (keeps_cmd (h _)) fun _ => .ite (.pure _) (.bind (keeps_cmd (h _)) fun _ => .pure _)

lemma keeps_deliver (mail : TMailMessage) : Keeps P (deliver m peer mail) := by
  unfold deliver
  refine .bind (.ite (keeps_orQuit h (keeps_cmdAuth h)) (.pure _)) fun _ => ?_
  refine .bind (keeps_orQuit h (.bind (keeps_cmd (h _)) fun _ => .pure _)) fun _ => ?_
  refine .bind (keeps_orQuit h (.ite (.pure _) (.bind (keeps_cmd (h _)) fun _ => .pure _)))
    fun _ => ?_
  refine .bind (keeps_orQuit h (.ite (.pure _) (keeps_rcptLoop h _))) fun _ => ?_
  exact .bind (keeps_orQuit h (keeps_cmdData h _)) fun _ =>
    .bind (keeps_cmdQuit (h _)) fun _ => .pure _

end

lemma socket_extensions (reply : List QByteArray) (s : State) :
    (reply.foldl State.extension s).socket = s.socket := by
  induction reply generalizing s with
  | nil => rfl
  | cons text reply ih =>
    rw [List.foldl_cons, ih]
    unfold State.extension
    split_ifs <;> rfl

lemma keeps_cmdEhlo (h : P.Admits (ehlo m))
    (ht : ∀ written e t t', P written e t → P written e t') : Keeps P (cmdEhlo m peer) := by
  refine .bind (keeps_cmd h) fun r => .ite (.pure _) (.bind (fun s hs => ?_) fun _ => .pure _)
  change P (r.reply.foldl State.extension s).socket.written
    (r.reply.foldl State.extension s).socket.encrypted _
  rw [socket_extensions]
  exact ht _ _ _ _ hs

/-! ### What goes out in the clear -/

/-- It is encrypted, or says nothing. -/
def Discreet (m : TSmtpMailer) (w : Written) : Prop :=
  w.encrypted ∨ w.bytes ∈ [line (ehlo m), line (ascii "STARTTLS"), line (ascii "QUIT")]

def Guarded (m : TSmtpMailer) : Says := fun written _ _ => ∀ w ∈ written, Discreet m w

def Encrypted (m : TSmtpMailer) : Says := fun written e t => Guarded m written e t ∧ e

/-- As soon as both ends have TLS, all that follows is encrypted. -/
def Secure (m : TSmtpMailer) : Says :=
  fun written e t => m.tlsEnable → t → Encrypted m written e t

lemma guarded_concat {written : List Written} {w : Written} {e t : Bool}
    (h : Guarded m written e t) (hw : Discreet m w) : Guarded m (written ++ [w]) e t := by
  intro x hx
  rcases List.mem_append.mp hx with hx | hx
  · exact h x hx
  · rw [List.mem_singleton.mp hx]
    exact hw

lemma guarded_admits {command : QByteArray}
    (h : line command ∈ [line (ehlo m), line (ascii "STARTTLS"), line (ascii "QUIT")]) :
    (Guarded m).Admits command := fun _ _ _ hs => guarded_concat hs (.inr h)

lemma encrypted_admits (command : QByteArray) : (Encrypted m).Admits command :=
  fun _ _ _ hs => ⟨guarded_concat hs.1 (.inl hs.2), hs.2⟩

lemma secure_admits (command : QByteArray) : (Secure m).Admits command :=
  fun _ _ _ hs hm ht => encrypted_admits command _ _ _ (hs hm ht)

/-- Behind STARTTLS the dialog begins again. -/
lemma triple_cmdStartTls :
    Triple (Guarded m).At (cmdStartTls m peer)
      (fun ok s => if ok then (Encrypted m).At s else (Guarded m).At s)
      (fun _ => (Guarded m).At) := by
  have hguarded : ∀ {α : Type} {a : Act α}, Keeps (Encrypted m) a →
      Triple (Encrypted m).At a (fun _ => (Encrypted m).At) (fun _ => (Guarded m).At) :=
    fun ha => ha.imp (fun _ _ hs => hs) fun _ _ hs => hs.1
  refine Triple.bind (keeps_cmd (guarded_admits (by simp))) fun r => ?_
  refine .ite (fun _ _ hs => hs) fun _ => ?_
  have hencrypted : Triple (Guarded m).At
      (modify fun s => { s with socket := { s.socket with encrypted := true } } : Act PUnit)
      (fun _ => (Encrypted m).At) (fun _ => (Guarded m).At) := fun s hs => ⟨hs, rfl⟩
  refine Triple.bind hencrypted fun _ => ?_
  refine .ite (fun _ _ hs => hs.1) fun _ => ?_
  refine Triple.bind (hguarded (keeps_cmdEhlo (encrypted_admits _) fun _ _ _ _ hs => hs))
    fun ok => .ite (fun hok => ?_) fun hok => ?_
  · exact fun _ hs => hs
  · exact Triple.bind (hguarded (keeps_cmdQuit (encrypted_admits _))) fun _ _ hs => hs.1

/-- If the mailer is to use TLS and has been told that the other end has it, all that has been
written in the clear is EHLO, STARTTLS and QUIT. -/
def Hides (m : TSmtpMailer) (s : State) : Prop :=
  m.tlsEnable → s.tlsAvailable → ∀ w ∈ s.socket.written, Discreet m w

/-- **Nothing is given away** on the connection, whatever the other end sends, and whatever the
mailer has kept from the messages before. -/
theorem send_hides (m : TSmtpMailer) (peer : Peer) (mail : TMailMessage) (tls : Bool)
    (methods : List QByteArray) :
    Outcome (fun _ => Hides m) (fun _ => Hides m)
      (send m peer mail { tlsAvailable := tls, svrAuthMethods := methods }) := by
  have hguarded : ∀ {α : Type} {a : Act α}, Keeps (Guarded m) a →
      Triple (Guarded m).At a (fun _ => (Guarded m).At) (fun _ => Hides m) :=
    fun ha => ha.imp (fun _ _ hs => hs) fun _ _ hs _ _ => hs
  have hquit : Keeps (Guarded m) (cmdQuit peer) := keeps_cmdQuit (guarded_admits (by simp))
  have hdeliver :
      Triple (Secure m).At (deliver m peer mail) (fun _ => Hides m) (fun _ => Hides m) :=
    Triple.imp (keeps_deliver secure_admits mail) (fun _ _ hs hm ht => (hs hm ht).1)
      fun _ _ hs hm ht => (hs hm ht).1
  refine (?_ : Triple (Guarded m).At (send m peer mail) _ _) _ nofun
  refine Triple.bind (hguarded (keeps_require _)) fun _ => ?_
  refine Triple.bind (hguarded (keeps_require _)) fun _ => ?_
  refine Triple.bind (hguarded (keeps_require _)) fun _ => ?_
  refine Triple.bind (hguarded keeps_connectToHost) fun _ => ?_
  refine Triple.bind (hguarded (keeps_require _)) fun _ => ?_
  refine Triple.bind (hguarded ?_) fun _ => .get_bind fun s hs => ?_
  · exact .bind (keeps_cmdEhlo (guarded_admits (by simp)) fun _ _ _ _ hs => hs)
      fun _ => .ite (.pure _) (.bind hquit fun _ => .throw)
  -- here it is decided whether TLS is used
  refine (Triple.bind ?_ fun _ => hdeliver : Triple (· = s) _ _ _) s rfl
  refine .ite (fun htls => ?_) fun htls => ?_
  · rintro _ rfl
    refine (Triple.bind (triple_cmdStartTls.imp (fun _ _ hs => hs) fun _ _ hs _ _ => hs)
      fun ok => .ite (fun hok => ?_) fun hok => ?_ : Triple (Guarded m).At _ _ _) _ hs
    · rw [hok]
      exact fun _ hs _ _ => hs
    · rw [Bool.eq_false_of_not_eq_true hok]
      exact Triple.bind (hguarded hquit) fun _ _ hs _ _ => hs
  · rintro _ rfl hm ht
    rw [hm, ht] at htls
    exact absurd rfl htls

end TreeFrog.SmtpDialog
