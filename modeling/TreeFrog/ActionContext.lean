import TreeFrog.Decimal
import TreeFrog.Exceptions
import TreeFrog.RequestHeader
import TreeFrog.Session
import TreeFrog.StaticFile
import TreeFrog.UrlRoute

/-!
`TActionContext::execute` in the thread of a connection: what is written to the socket for a request
that a controller answers, or a static file. A controller may throw wherever it is called; what is
thrown is caught behind everything else, the session garbage collection included, which comes behind
the response.
-/

namespace TreeFrog.ActionContext

open Bytes Decimal LexicalPath UrlRoute StaticFile Session Exceptions
open RequestHeader (THttpRequestHeader)

/-- The exceptions that `execute` tells apart; the last one stands for all others. -/
inductive TException where
  | clientError (statusCode : ℤ)
  | sql
  | kvs
  | security
  | runtime
  | standard
  | other
  deriving DecidableEq, Repr

/-- The calls that may throw, in their order. `sessionEnabled` is asked three times: at `session`,
at `sessionId` and at `sessionStore`. -/
inductive Point where
  | construct
  | session
  | findSession
  | exportAllFlashVariants
  | csrfProtection
  | verifyRequest
  | sessionId
  | remove
  | generateId
  | setCsrfProtectionInto
  | transactionEnabled
  | preFilter
  | action
  | postFilter
  | rollbackTransactions
  | commitTransactions
  | sessionStore
  | store
  | webSocketTasks
  | collectGarbage
  deriving DecidableEq, Repr

/-! ### The parts -/

/-- The lines of a response header that depend on the request. -/
structure THttpResponseHeader where
  statusCode : ℤ
  reasonPhrase : QByteArray
  contentType : QByteArray
  location : QByteArray
  lastModified : QByteArray
  deriving DecidableEq, Repr

def THttpResponseHeader.empty : THttpResponseHeader := ⟨0, [], [], [], []⟩

def reasonPhrases : List (ℤ × String) :=
  [(100, "Continue"), (101, "Switching Protocols"),
   (200, "OK"), (201, "Created"), (202, "Accepted"), (203, "Non-Authoritative Information"),
   (204, "No Content"), (205, "Reset Content"), (206, "Partial Content"),
   (300, "Multiple Choices"), (301, "Moved Permanently"), (302, "Found"), (303, "See Other"),
   (304, "Not Modified"), (305, "Use Proxy"), (307, "Temporary Redirect"),
   (400, "Bad Request"), (401, "Unauthorized"), (402, "Payment Required"), (403, "Forbidden"),
   (404, "Not Found"), (405, "Method Not Allowed"), (406, "Not Acceptable"),
   (407, "Proxy Authentication Required"), (408, "Request Timeout"), (409, "Conflict"),
   (410, "Gone"), (411, "Length Required"), (412, "Precondition Failed"),
   (413, "Request Entity Too Large"), (414, "Request-URI Too Long"),
   (415, "Unsupported Media Type"), (416, "Requested Range Not Satisfiable"),
   (417, "Expectation Failed"),
   (500, "Internal Server Error"), (501, "Not Implemented"), (502, "Bad Gateway"),
   (503, "Service Unavailable"), (504, "Gateway Timeout"), (505, "HTTP Version Not Supported")]

def getResponseReasonPhrase (statusCode : ℤ) : QByteArray :=
  ascii ((reasonPhrases.lookup statusCode).getD "")

def THttpResponseHeader.setStatusLine (h : THttpResponseHeader) (statusCode : ℤ) :
    THttpResponseHeader :=
  { h with statusCode, reasonPhrase := getResponseReasonPhrase statusCode }

/-- A body; one in memory can always be opened, and a file that is open stays so. -/
structure QIODevice where
  opens : Bool
  content : QByteArray

def buffer (content : QByteArray) : QIODevice := ⟨true, content⟩

/-- What is at a path; the time is that of the last change, in milliseconds. -/
structure QFile where
  exists_ : Bool
  isFile : Bool
  isReadable : Bool
  opens : Bool
  content : QByteArray
  lastModified : ℤ
  internetMediaType : QByteArray

def QFile.device (f : QFile) : QIODevice := ⟨f.opens, f.content⟩

/-- What a filter or an action calls. A view has an output, or is not found; `httpResponse` stands
for any change of the response itself. -/
inductive Call where
  | setStatusCode (code : ℤ)
  | httpResponse (header : THttpResponseHeader) (body : Option QByteArray)
  | render (view : Option QByteArray)
  | renderTemplate (valid : Bool) (view : Option QByteArray)
  | renderErrorResponse (statusCode : ℤ)
  | redirect (url : QByteArray) (statusCode : ℤ)
  | sendFile (filePath : Text) (contentType : QByteArray)
  | sendData (data : Option QByteArray) (contentType : QByteArray)

/-- A controller, as it answers one request. `slot` finds the action of a name with a number of
arguments; `thrown` is the first exception, if the call at that point is made. -/
structure TActionController where
  sessionEnabled : Point → Bool
  csrfProtectionEnabled : Bool
  exceptionActionsOfCsrfProtection : List Text
  preFilter : List Call × Bool
  slot : QByteArray → ℕ → Option (List Text → List Call)
  postFilter : List Call
  rollbackRequested : Bool
  thrown : Option (Point × TException)

/-- The values of a session; one that is not there is empty. -/
abbrev QVariantMap := Text → QByteArray

structure THttpRequest where
  header : THttpRequestHeader
  method : HttpMethod
  sessionCookie : QByteArray
  authenticityToken : QByteArray

/-- The application: its settings, its classes, the files and what is used of the library. -/
structure App where
  unicode : Unicode
  fromUtf8 : QByteArray → Text
  toEncoded : Text → QByteArray
  fromHttpDateTimeString : QByteArray → Option ℤ
  toHttpDateTimeString : ℤ → QByteArray
  sha1Hex : QByteArray → QByteArray
  codecForHttpOutput : QByteArray
  directViewRenderMode : Bool
  enableCsrfProtectionModule : Bool
  sessionAutoIdRegeneration : Bool
  sessionStoreIsCookie : Bool
  sessionCsrfProtectionKey : Text
  sessionSecret : QByteArray
  routes : List TRoute
  objectFactories : QByteArray → Option TActionController
  metaTypes : QByteArray → Option TActionController
  findSession : QByteArray → TSession QVariantMap
  generateId : QByteArray
  publicPath : Text
  file : Text → QFile

inductive Output where
  | response (header : THttpResponseHeader) (body : QByteArray)
  | close
  deriving DecidableEq, Repr

/-- The controller with its response, the header that the context writes, and the socket. -/
structure State where
  session : TSession QVariantMap
  rendered : Bool
  statusCode : ℤ
  response : THttpResponseHeader
  body : Option QByteArray
  responseHeader : THttpResponseHeader
  outputs : List Output

abbrev Act := EStateM TException State

def emptySession : TSession QVariantMap := ⟨fun _ => [], []⟩

/-- A new controller, and nothing written. -/
def State.initial : State :=
  { session := emptySession, rendered := false, statusCode := 200,
    response := { THttpResponseHeader.empty with contentType := ascii "text/html" }, body := none,
    responseHeader := .empty, outputs := [] }

/-- The call at this point. -/
def reach (c : TActionController) (p : Point) : Act Unit :=
  match c.thrown with
  | some (p', e) => if p' = p then throw e else pure ()
  | none => pure ()

/-! ### What a controller does to its response -/

def State.setBodyFile (app : App) (filePath : Text) (s : State) : State :=
  let f := app.file filePath
  { s with body := if f.exists_ && f.opens then some f.content else none }

def State.sendFile (app : App) (filePath : Text) (contentType : QByteArray) (s : State) : State :=
  if s.rendered then s
  else
    let s := s.setBodyFile app filePath
    { s with rendered := true, response := { s.response with contentType } }

/-- The page of a status code in the public directory. -/
def errorPage (app : App) (statusCode : ℤ) : Text :=
  app.publicPath ++ fromAscii (number statusCode ++ ascii ".html")

def State.renderErrorResponse (app : App) (statusCode : ℤ) (s : State) : State :=
  if s.rendered then s
  else
    let file := errorPage app statusCode
    let s :=
      if (app.file file).exists_ then s.sendFile app file (ascii "text/html")
      else { s with body := some [] }
    { s with statusCode, rendered := true }

def State.redirect (url : QByteArray) (statusCode : ℤ) (s : State) : State :=
  if s.rendered then s
  else
    { s with
      rendered := true, statusCode,
      response := { s.response with location := url, contentType := ascii "text/html" },
      body := some (ascii "<html><body>redirected.</body></html>") }

def Call.run (app : App) (s : State) : Call → State
  | .setStatusCode code => { s with statusCode := code }
  | .httpResponse header body => { s with response := header, body }
  | .render view => if s.rendered then s else { s with rendered := true, body := view }
  | .renderTemplate valid view =>
    if s.rendered then s
    else if valid then { s with rendered := true, body := view }
    else { s with rendered := true }
  | .renderErrorResponse statusCode => s.renderErrorResponse app statusCode
  | .redirect url statusCode => s.redirect url statusCode
  | .sendFile filePath contentType => s.sendFile app filePath contentType
  | .sendData data contentType =>
    if s.rendered then s
    else { s with rendered := true, body := data, response := { s.response with contentType } }

def runCalls (app : App) (calls : List Call) (s : State) : State := calls.foldl (Call.run app) s

/-! ### Writing -/

/-- `THttpSocket::write`: neither the header nor the body if the body cannot be opened. -/
def write (header : THttpResponseHeader) : Option QIODevice → Act Unit
  | some body =>
    if body.opens then
      modify fun s => { s with outputs := s.outputs ++ [.response header body.content] }
    else pure ()
  | none => modify fun s => { s with outputs := s.outputs ++ [.response header []] }

def closeHttpSocket : Act Unit := modify fun s => { s with outputs := s.outputs ++ [.close] }

/-- `writeResponse` with a status, a content type and a body. -/
def writeBody (statusCode : ℤ) (contentType : QByteArray) (body : Option QIODevice) : Act Unit := do
  modify fun s =>
    let header := s.responseHeader.setStatusLine statusCode
    { s with responseHeader := if contentType = [] then header else { header with contentType } }
  let s ← get
  write s.responseHeader body

/-- The error page if there is one that can be read, else the status as a page. -/
def statusBody (app : App) (statusCode : ℤ) : QByteArray :=
  let html := app.file (errorPage app statusCode)
  let body := if 400 ≤ statusCode ∧ html.exists_ ∧ html.opens then html.content else []
  if body = [] then
    ascii "<html><body>" ++ getResponseReasonPhrase statusCode ++ ascii " (" ++ number statusCode ++
      ascii ")</body></html>"
  else body

/-- `writeResponse` with a status. -/
def writeResponse (app : App) (statusCode : ℤ) : Act Unit :=
  if statusCode = 304 then writeBody statusCode [] none
  else writeBody statusCode (ascii "text/html") (some (buffer (statusBody app statusCode)))

/-! ### The controller of a request -/

/-- The default routing of a path without a route. -/
def defaultRouting (app : App) (components : List Text) (route : TRouting) : TRouting :=
  if app.directViewRenderMode then
    { route with
      controller := ascii "directcontroller", action := ascii "show", params := components }
  else
    let c := Bytes.toLower (app.unicode.toLatin1 (components.getD 0 []))
    if c ≠ [] ∧ c ≠ ascii "application" then
      { route with
        controller := c ++ ascii "controller",
        action := app.unicode.toLatin1 (components.getD 1 (text "index")),
        params := components.drop 2 }
    else route

def routing (app : App) (req : THttpRequest) : TRouting :=
  let components := splitPath (fromUrlEncoding app.fromUtf8 (req.header.reqUri.takeWhile (· ≠ 63)))
  let route := findRouting app.routes req.method components
  if route.exists_ then route else defaultRouting app components route

/-- `TDispatcher::object`: a class of that name in lower case, or one that the library has. -/
def object (app : App) (controller : QByteArray) : Option TActionController :=
  let metaType := app.fromUtf8 controller
  let name := app.unicode.toLatin1 metaType
  match app.objectFactories (Bytes.toLower name) with
  | some c => some c
  | none => if metaType = [] then none else app.metaTypes name

/-- `TDispatcher::invoke`: the slot with as many arguments as there are, or with less, or with
more. -/
def findSlot (c : TActionController) (method : QByteArray) (args : List Text) :
    Option (List Call) :=
  let narg := min args.length 10
  ((List.range (narg + 1)).reverse ++ List.range' (narg + 1) (9 - narg)).findSome? fun argcnt =>
    (c.slot method argcnt).map fun action => action ((List.range argcnt).map (args.getD · []))

def authenticityToken (app : App) (session : TSession QVariantMap) : Except TException QByteArray :=
  if app.sessionStoreIsCookie then
    let csrfId := session.data app.sessionCsrfProtectionKey
    if csrfId = [] then .error .runtime else .ok csrfId
  else .ok (app.sha1Hex (session.sessionId ++ app.sessionSecret))

def verifyRequest (app : App) (req : THttpRequest) (c : TActionController)
    (session : TSession QVariantMap) : Except TException Bool :=
  if !c.csrfProtectionEnabled then .ok true
  else if !app.sessionStoreIsCookie ∧ session.sessionId = [] then .error .security
  else if req.authenticityToken = [] then .error .security
  else (authenticityToken app session).map fun token => req.authenticityToken = token

/-- The authenticity token of this request is to be verified. -/
def verifies (app : App) (req : THttpRequest) (route : TRouting) (c : TActionController) : Bool :=
  c.csrfProtectionEnabled &&
    !c.exceptionActionsOfCsrfProtection.contains (app.fromUtf8 route.action) &&
    (req.method = .post || req.method = .put || req.method = .patch || req.method = .delete)

variable (app : App) (req : THttpRequest) (route : TRouting) (c : TActionController)

def findSession : Act (TSession QVariantMap) :=
  if req.sessionCookie = [] then pure emptySession
  else do
    reach c .findSession
    return app.findSession req.sessionCookie

/-- The flash variants are for the views. -/
def withoutFlash (session : TSession QVariantMap) : TSession QVariantMap :=
  { session with data := Function.update session.data (text "_flashVariants") [] }

def importSession : Act Unit := do
  reach c .session
  if c.sessionEnabled .session then do
    let session ← findSession app req c
    reach c .exportAllFlashVariants
    modify fun s => { s with session := withoutFlash session }

def verifyAuthenticityToken : Act Unit :=
  if app.enableCsrfProtectionModule then do
    reach c .csrfProtection
    if verifies app req route c then do
      reach c .verifyRequest
      let s ← get
      match verifyRequest app req c s.session with
      | .error e => throw e
      | .ok verified => if verified then pure () else throw .security
  else pure ()

/-- Renews the session ID. -/
def renewSession : Act Unit := do
  let s ← get
  if s.session.sessionId = [] || app.sessionAutoIdRegeneration then do
    reach c .remove
    reach c .generateId
    modify fun s => { s with session := { s.session with sessionId := app.generateId } }

def setCsrfProtectionInto : Act Unit := do
  reach c .setCsrfProtectionInto
  if app.sessionStoreIsCookie then
    modify fun s =>
      { s with session := { s.session with
          data := Function.update s.session.data app.sessionCsrfProtectionKey app.generateId } }

def prepareSession : Act Unit := do
  reach c .sessionId
  if c.sessionEnabled .sessionId then do
    renewSession app c
    setCsrfProtectionInto app c

/-- The session store; the cookie of a session that is stored is not part of this. -/
def storeSession : Act Unit := do
  reach c .sessionStore
  if c.sessionEnabled .sessionStore then reach c .store

def postFilter : Act Unit := do
  reach c .postFilter
  modify (runCalls app c.postFilter)
  reach c (if c.rollbackRequested then .rollbackTransactions else .commitTransactions)
  storeSession c
  reach c .webSocketTasks

/-- Dispatches; the answer is whether there is such an action. -/
def invoke : Act Bool :=
  match findSlot c route.action route.params with
  | none => return false
  | some calls => do
    reach c .action
    modify (runCalls app calls)
    postFilter app c
    return true

def dispatch : Act Bool := do
  reach c .preFilter
  modify (runCalls app c.preFilter.1)
  if c.preFilter.2 then invoke app route c else return false

/-- Sets charset to the content-type. -/
def setCharset (s : State) : State :=
  let ctype := Bytes.toLower s.response.contentType
  if ascii "text" <+: ctype ∧ !contains ctype (ascii "charset") then
    { s with response :=
        { s.response with contentType := ctype ++ ascii "; charset=" ++ app.codecForHttpOutput } }
  else s

/-- Everything in front of the response. -/
def prepare : Act Bool := do
  reach c .construct
  importSession app req c
  verifyAuthenticityToken app req route c
  prepareSession app c
  reach c .transactionEnabled
  let dispatched ← dispatch app route c
  modify (setCharset app)
  return dispatched

/-- Writes a response. -/
def respond (dispatched : Bool) : Act Unit := do
  let s ← get
  match s.body with
  | none => writeResponse app (if dispatched then 500 else 404)
  | some body => write (s.response.setStatusLine s.statusCode) (some (buffer body))

def callController : Act Unit := do
  let dispatched ← prepare app req route c
  respond app dispatched
  reach c .collectGarbage

/-! ### A static file -/

def staticFile : QFile :=
  app.file (app.publicPath ++
    canonicalPath (staticPath app.fromUtf8 req.header.reqUri route.controller))

/-- The file has changed since the time that the request gives, or no time is given. -/
def sendfile (file : QFile) : Bool :=
  let ifModifiedSince := (req.header.rawHeader (ascii "If-Modified-Since")).getD []
  if ifModifiedSince = [] then true
  else
    match app.fromHttpDateTimeString ifModifiedSince with
    | none => true
    | some dt => dt.tdiv 1000 ≠ file.lastModified.tdiv 1000

def sendRequestFile (file : QFile) : Act Unit := do
  modify fun s =>
    { s with responseHeader :=
        { s.responseHeader with lastModified := app.toHttpDateTimeString file.lastModified } }
  writeBody 200 file.internetMediaType (some file.device)

/-- Routing not empty, redirect. -/
def redirectToPath : Act Unit := do
  modify fun s =>
    { s with responseHeader :=
        { s.responseHeader with
          location := app.toEncoded (staticPath app.fromUtf8 req.header.reqUri route.controller),
          contentType := ascii "text/html" } }
  writeResponse app 302

def sendStaticFile : Act Unit :=
  match req.method with
  | .get =>
    let file := staticFile app req route
    if file.isFile && file.isReadable then
      if sendfile app req file then sendRequestFile app file else writeResponse app 304
    else if !route.exists_ then writeResponse app 404
    else redirectToPath app req route
  | .post => pure ()  -- file upload?
  | _ => pure ()  -- HEAD, DELETE, ...

/-! ### Executing a request -/

def process : Act Unit :=
  match object app (routing app req).controller with
  | some c => callController app req (routing app req) c
  | none => sendStaticFile app req (routing app req)

/-- What is done about an exception. -/
def caught : TException → Act Unit
  | .clientError statusCode => writeResponse app statusCode
  | _ => closeHttpSocket

/-- What `execute` writes to the socket. -/
def execute : List Output :=
  match tryCatch (process app req) (caught app) .initial with
  | .ok _ s => s.outputs
  | .error _ s => s.outputs

/-! ### What is written -/

def Output.isResponse : Output → Bool
  | .response _ _ => true
  | .close => false

/-- One response or a closed connection, and never two responses. -/
def Answered (outputs : List Output) : Prop :=
  outputs.countP Output.isResponse ≤ 1 ∧
    (outputs.countP Output.isResponse = 1 ∨ Output.close ∈ outputs)

instance (outputs : List Output) : Decidable (Answered outputs) :=
  inferInstanceAs (Decidable (_ ∧ _))

/-- The session behind `importSession`. -/
def sessionOf : TSession QVariantMap :=
  if c.sessionEnabled .session then
    withoutFlash
      (if req.sessionCookie = [] then emptySession else app.findSession req.sessionCookie)
  else emptySession

/-- The request has not the authenticity token that it needs. -/
def Rejected : Prop :=
  app.enableCsrfProtectionModule = true ∧ verifies app req route c = true ∧
    verifyRequest app req c (sessionOf app req c) ≠ .ok true

/-- Thrown in front of the response. -/
def TActionController.Early (e : TException) : Prop :=
  ∃ p, p ≠ .collectGarbage ∧ c.thrown = some (p, e)

def TException.isClientError : TException → Bool
  | .clientError _ => true
  | _ => false

/-- The session garbage collection throws a client error. -/
def TActionController.Late : Prop :=
  ∃ e, c.thrown = some (.collectGarbage, e) ∧ e.isClientError = true

/-- There is a static file, and it is to be sent. -/
def SendsFile : Prop :=
  (staticFile app req route).isFile = true ∧ (staticFile app req route).isReadable = true ∧
    sendfile app req (staticFile app req route) = true

/-- Without a controller: the method is GET, and a file that is to be sent can be opened. -/
def StaticAnswers : Prop :=
  req.method = .get ∧ (SendsFile app req route → (staticFile app req route).opens = true)

variable {app req route c} {α β : Type} {m : Act α} {os : List Output} {p : Point} {s : State}

lemma triple_reach {Q : State → Prop} :
    Triple Q (reach c p) (fun _ s => Q s ∧ ∀ e, c.thrown ≠ some (p, e))
      (fun e s => Q s ∧ c.thrown = some (p, e)) := by
  intro s hs
  unfold reach
  cases hthrown : c.thrown with
  | none => exact ⟨hs, fun e h => nomatch h⟩
  | some t =>
    obtain ⟨p', e⟩ := t
    dsimp only
    by_cases hp : p' = p
    · subst hp
      rw [if_pos rfl]
      exact ⟨hs, rfl⟩
    · rw [if_neg hp]
      exact ⟨hs, fun e h => hp (Prod.mk.inj (Option.some.inj h)).1⟩

lemma triple_reach_early {Q : State → Prop} (hp : p ≠ .collectGarbage)
    (hQ : ∀ s, Q s → s.outputs = os) :
    Triple Q (reach c p) (fun _ => Q) (fun e s => s.outputs = os ∧ c.Early e) :=
  triple_reach.imp (fun _ _ h => h.1) fun _ s h => ⟨hQ s h.1, p, hp, h.2⟩

/-- Nothing is written, and what is thrown is thrown in front of the response. -/
def Silent (c : TActionController) (m : Act α) : Prop :=
  ∀ os, Triple (·.outputs = os) m (fun _ s => s.outputs = os)
    (fun e s => s.outputs = os ∧ c.Early e)

namespace Silent

lemma pure (a : α) : Silent c (Pure.pure a) := fun _ _ hs => hs

lemma modify {g : State → State} (h : ∀ s, (g s).outputs = s.outputs) : Silent c (modify g) :=
  fun _ => Triple.modify fun s hs => (h s).trans hs

lemma bind {f : α → Act β} (hm : Silent c m) (hf : ∀ a, Silent c (f a)) : Silent c (m >>= f) :=
  fun os => (hm os).bind fun a => hf a os

lemma get_bind {f : State → Act β} (hf : ∀ s, Silent c (f s)) : Silent c (get >>= f) :=
  fun os => Triple.get_bind fun s hs => hf s os s hs

lemma ite {q : Prop} [Decidable q] {m' : Act α} (hm : Silent c m) (hm' : Silent c m') :
    Silent c (if q then m else m') :=
  fun os => Triple.ite (fun _ => hm os) fun _ => hm' os

lemma reach (hp : p ≠ .collectGarbage) : Silent c (reach c p) :=
  fun _ => triple_reach_early hp fun _ hs => hs

end Silent

/-! The calls of a controller. -/

lemma outputs_sendFile (filePath : Text) (contentType : QByteArray) :
    (s.sendFile app filePath contentType).outputs = s.outputs := by
  unfold State.sendFile
  split_ifs <;> rfl

lemma outputs_renderErrorResponse (statusCode : ℤ) :
    (s.renderErrorResponse app statusCode).outputs = s.outputs := by
  unfold State.renderErrorResponse
  dsimp only
  split_ifs
  · rfl
  · exact outputs_sendFile _ _
  · rfl

lemma outputs_run (call : Call) : (call.run app s).outputs = s.outputs := by
  cases call with
  | setStatusCode code => rfl
  | httpResponse header body => rfl
  | render view =>
    rw [Call.run]
    split_ifs <;> rfl
  | renderTemplate valid view =>
    rw [Call.run]
    split_ifs <;> rfl
  | renderErrorResponse statusCode => exact outputs_renderErrorResponse statusCode
  | redirect url statusCode =>
    rw [Call.run, State.redirect]
    split_ifs <;> rfl
  | sendFile filePath contentType => exact outputs_sendFile filePath contentType
  | sendData data contentType =>
    rw [Call.run]
    split_ifs <;> rfl

lemma outputs_runCalls (calls : List Call) : (runCalls app calls s).outputs = s.outputs := by
  induction calls generalizing s with
  | nil => rfl
  | cons call calls ih => exact ih.trans (outputs_run call)

/-! The stages. -/

lemma silent_renewSession : Silent c (renewSession app c) :=
  .get_bind fun _ => .ite
    (.bind (.reach (by decide)) fun _ => .bind (.reach (by decide)) fun _ => .modify fun _ => rfl)
    (.pure _)

lemma silent_setCsrfProtectionInto : Silent c (setCsrfProtectionInto app c) :=
  .bind (.reach (by decide)) fun _ => .ite (.modify fun _ => rfl) (.pure _)

lemma silent_prepareSession : Silent c (prepareSession app c) :=
  .bind (.reach (by decide)) fun _ => .ite
    (.bind silent_renewSession fun _ => silent_setCsrfProtectionInto) (.pure _)

lemma silent_storeSession : Silent c (storeSession c) :=
  .bind (.reach (by decide)) fun _ => .ite (.reach (by decide)) (.pure _)

lemma silent_postFilter : Silent c (postFilter app c) := by
  have hend : (if c.rollbackRequested then Point.rollbackTransactions else .commitTransactions) ≠
      .collectGarbage := by
    split_ifs <;> decide
  refine .bind (.reach (by decide)) fun _ => ?_
  refine .bind (.modify fun _ => outputs_runCalls _) fun _ => ?_
  refine .bind (.reach hend) fun _ => ?_
  exact .bind silent_storeSession fun _ => .reach (by decide)

lemma silent_invoke : Silent c (invoke app route c) := by
  unfold invoke
  cases findSlot c route.action route.params with
  | none => exact .pure _
  | some calls =>
    refine .bind (.reach (by decide)) fun _ => ?_
    refine .bind (.modify fun _ => outputs_runCalls _) fun _ => ?_
    exact .bind silent_postFilter fun _ => .pure _

lemma silent_dispatch : Silent c (dispatch app route c) := by
  refine .bind (.reach (by decide)) fun _ => ?_
  refine .bind (.modify fun _ => outputs_runCalls _) fun _ => ?_
  exact .ite silent_invoke (.pure _)

lemma silent_setCharset : Silent c (modify (setCharset app)) := by
  refine .modify fun s => ?_
  unfold setCharset
  dsimp only
  split_ifs <;> rfl

lemma triple_findSession :
    Triple (·.outputs = os) (findSession app req c)
      (fun session s => s.outputs = os ∧ session =
        if req.sessionCookie = [] then emptySession else app.findSession req.sessionCookie)
      (fun e s => s.outputs = os ∧ c.Early e) := by
  refine .ite (fun hcookie => ?_) fun hcookie => ?_
  · exact fun s hs => ⟨hs, (if_pos hcookie).symm⟩
  · exact (Silent.reach (by decide) os).bind fun _ s hs => ⟨hs, (if_neg hcookie).symm⟩

lemma triple_importSession :
    Triple (fun s => s.outputs = os ∧ s.session = emptySession) (importSession app req c)
      (fun _ s => s.outputs = os ∧ s.session = sessionOf app req c)
      (fun e s => s.outputs = os ∧ c.Early e) := by
  refine (triple_reach_early (by decide) fun _ hs => hs.1).bind fun _ => ?_
  unfold sessionOf
  refine .ite (fun henabled => ?_) fun henabled => ?_
  · rw [if_pos henabled]
    refine Triple.bind (triple_findSession.of_imp fun s hs => hs.1) fun session => ?_
    refine (triple_reach_early (by decide) fun _ hs => hs.1).bind fun _ => ?_
    exact .modify fun s hs => ⟨hs.1, congrArg withoutFlash hs.2⟩
  · rw [if_neg henabled]
    exact fun s hs => hs

lemma triple_or_rejected {pre : State → Prop} {post : α → State → Prop}
    (h : Triple pre m post fun e s => s.outputs = os ∧ c.Early e) :
    Triple pre m post fun e s => s.outputs = os ∧ (c.Early e ∨ Rejected app req route c) :=
  h.imp (fun _ _ h => h) fun _ _ h => ⟨h.1, .inl h.2⟩

/-- A request that goes on is not rejected; one that is rejected ends here, unless something else
has been thrown. -/
lemma triple_verifyAuthenticityToken :
    Triple (fun s => s.outputs = os ∧ s.session = sessionOf app req c)
      (verifyAuthenticityToken app req route c)
      (fun _ s => s.outputs = os ∧ ¬ Rejected app req route c)
      (fun e s => s.outputs = os ∧ (c.Early e ∨ Rejected app req route c)) := by
  have hearly : ∀ p, p ≠ Point.collectGarbage →
      Triple (fun s => s.outputs = os ∧ s.session = sessionOf app req c) (reach c p)
        (fun _ s => s.outputs = os ∧ s.session = sessionOf app req c)
        (fun e s => s.outputs = os ∧ (c.Early e ∨ Rejected app req route c)) :=
    fun p hp => triple_or_rejected (triple_reach_early hp fun _ hs => hs.1)
  refine .ite (fun hmodule => ?_) fun hmodule s hs => ⟨hs.1, fun hrejected => hmodule hrejected.1⟩
  refine (hearly .csrfProtection (by decide)).bind fun _ => ?_
  refine .ite (fun hverifies => ?_) fun hverifies => ?_
  · refine (hearly .verifyRequest (by decide)).bind fun _ => ?_
    refine .get_bind fun s hs => ?_
    rw [hs.2]
    cases hresult : verifyRequest app req c (sessionOf app req c) with
    | error e => exact ⟨hs.1, .inr ⟨hmodule, hverifies, by rw [hresult]; exact nofun⟩⟩
    | ok verified =>
      cases verified with
      | true => exact ⟨hs.1, fun hrejected => hrejected.2.2 hresult⟩
      | false => exact ⟨hs.1, .inr ⟨hmodule, hverifies, by rw [hresult]; exact nofun⟩⟩
  · exact fun s hs => ⟨hs.1, fun hrejected => hverifies hrejected.2.1⟩

lemma triple_prepare :
    Triple (fun s => s.outputs = os ∧ s.session = emptySession) (prepare app req route c)
      (fun _ s => s.outputs = os ∧ ¬ Rejected app req route c)
      (fun e s => s.outputs = os ∧ (c.Early e ∨ Rejected app req route c)) := by
  refine Triple.bind (triple_or_rejected (triple_reach_early (by decide) fun _ hs => hs.1))
    fun _ => ?_
  refine Triple.bind (triple_or_rejected triple_importSession) fun _ => ?_
  refine triple_verifyAuthenticityToken.bind fun _ => ?_
  intro s hs
  have hrest : Silent c (prepareSession app c >>= fun _ =>
      reach c .transactionEnabled >>= fun _ =>
      dispatch app route c >>= fun dispatched =>
      modify (setCharset app) >>= fun _ => Pure.pure dispatched) := by
    refine .bind silent_prepareSession fun _ => .bind (.reach (by decide)) fun _ => ?_
    exact .bind silent_dispatch fun _ => .bind silent_setCharset fun _ => .pure _
  exact (hrest os s hs.1).imp (fun _ _ h => ⟨h, hs.2⟩) fun _ _ h => ⟨h.1, .inl h.2⟩

/-! The response. -/

/-- One more response than there. -/
def Responded (os : List Output) (s : State) : Prop :=
  ∃ header body, s.outputs = os ++ [.response header body]

variable {exc : TException → State → Prop}

lemma silent_header (g : State → THttpResponseHeader) :
    Triple (·.outputs = os) (modify fun s => { s with responseHeader := g s })
      (fun _ s => s.outputs = os) exc :=
  .modify fun _ hs => hs

lemma triple_write {header : THttpResponseHeader} {body : Option QIODevice}
    (hopens : ∀ d ∈ body, d.opens = true) :
    Triple (·.outputs = os) (write header body) (fun _ => Responded os) exc := by
  cases body with
  | none => exact .modify fun s hs => ⟨header, [], by rw [← hs]⟩
  | some d =>
    rw [write, if_pos (hopens d rfl)]
    exact .modify fun s hs => ⟨header, d.content, by rw [← hs]⟩

lemma triple_write_unopened {header : THttpResponseHeader} {d : QIODevice} (h : d.opens = false) :
    Triple (·.outputs = os) (write header (some d)) (fun _ s => s.outputs = os) exc := by
  rw [write, h]
  exact fun s hs => hs

lemma triple_writeBody {statusCode : ℤ} {contentType : QByteArray} {body : Option QIODevice}
    {post : Unit → State → Prop}
    (hwrite : ∀ header, Triple (·.outputs = os) (write header body) post exc) :
    Triple (·.outputs = os) (writeBody statusCode contentType body) post exc :=
  Triple.bind (silent_header _) fun _ => .get_bind fun s hs => hwrite _ s hs

lemma triple_writeResponse (statusCode : ℤ) :
    Triple (·.outputs = os) (writeResponse app statusCode) (fun _ => Responded os) exc :=
  .ite (fun _ => triple_writeBody fun _ => triple_write nofun)
    fun _ => triple_writeBody fun _ => triple_write fun _ hd => by cases hd; rfl

lemma triple_respond (dispatched : Bool) :
    Triple (·.outputs = os) (respond app dispatched) (fun _ => Responded os) exc := by
  refine .get_bind fun s hs => ?_
  cases s.body with
  | none => exact triple_writeResponse _ s hs
  | some body => exact triple_write (fun _ hd => by cases hd; rfl) s hs

lemma triple_caught {e : TException} (he : e.isClientError = true) :
    Triple (·.outputs = os) (caught app e) (fun _ => Responded os) exc := by
  cases e with
  | clientError statusCode => exact triple_writeResponse statusCode
  | _ => cases he

lemma triple_caught_close {e : TException} (he : e.isClientError = false) :
    Triple (·.outputs = os) (caught app e) (fun _ s => s.outputs = os ++ [.close]) exc := by
  cases e with
  | clientError statusCode => cases he
  | _ => exact .modify fun s hs => by rw [← hs]

/-! ### Every request -/

lemma not_answered_nil : ¬ Answered [] := by decide

lemma answered_responded (h : Responded [] s) : Answered s.outputs := by
  obtain ⟨header, body, h⟩ := h
  rw [h]
  exact ⟨le_rfl, .inl rfl⟩

lemma answered_closed (h : s.outputs = [] ++ [.close]) : Answered s.outputs := by
  rw [h]
  exact ⟨Nat.zero_le _, .inr List.mem_cons_self⟩

lemma answered_responded_closed {s' : State} (h : Responded [] s)
    (h' : s'.outputs = s.outputs ++ [.close]) : Answered s'.outputs := by
  obtain ⟨header, body, h⟩ := h
  rw [h', h]
  exact ⟨le_rfl, .inl rfl⟩

lemma not_answered_twice {s' : State} (h : Responded [] s) (h' : Responded s.outputs s') :
    ¬ Answered s'.outputs := by
  obtain ⟨header, body, h⟩ := h
  obtain ⟨header', body', h'⟩ := h'
  rw [h', h]
  exact fun hanswered => absurd hanswered.1 (Nat.not_succ_le_self 1)

lemma outcome_caught {e : TException} (h : s.outputs = []) :
    Outcome (fun _ s => Answered s.outputs) exc (caught app e s) := by
  cases he : e.isClientError with
  | true => exact (triple_caught he s h).imp (fun _ _ => answered_responded) fun _ _ h => h
  | false => exact (triple_caught_close he s h).imp (fun _ _ => answered_closed) fun _ _ h => h

lemma outcome_caught_late {e : TException} (h : Responded [] s) :
    Outcome (fun _ s => Answered s.outputs ↔ e.isClientError = false) exc (caught app e s) := by
  cases he : e.isClientError with
  | true =>
    exact (triple_caught he s rfl).imp
      (fun _ _ h' => iff_of_false (not_answered_twice h h') Bool.true_eq_false.mp) fun _ _ h => h
  | false =>
    exact (triple_caught_close he s rfl).imp
      (fun _ _ h' => iff_of_true (answered_responded_closed h h') rfl) fun _ _ h => h

lemma execute_of_outcome {P : List Output → Prop}
    (h : Outcome (fun _ s => P s.outputs) (fun _ s => P s.outputs)
      (tryCatch (process app req) (caught app) .initial)) : P (execute app req) := by
  unfold execute
  cases hr : tryCatch (process app req) (caught app) .initial with
  | ok _ s =>
    rw [hr] at h
    exact h
  | error _ s =>
    rw [hr] at h
    exact h

lemma triple_callController :
    Triple (fun s => s.outputs = [] ∧ s.session = emptySession) (callController app req route c)
      (fun _ s => Responded [] s ∧ ∀ e, c.thrown ≠ some (.collectGarbage, e))
      (fun e s => s.outputs = [] ∧ (c.Early e ∨ Rejected app req route c) ∨
        Responded [] s ∧ ¬ Rejected app req route c ∧ c.thrown = some (.collectGarbage, e)) := by
  refine Triple.bind (triple_prepare.imp (fun _ _ h => h) fun _ _ h => .inl h) fun dispatched => ?_
  have hresponse : Triple (fun s => s.outputs = [] ∧ ¬ Rejected app req route c)
      (respond app dispatched) (fun _ s => Responded [] s ∧ ¬ Rejected app req route c)
      (fun e s => s.outputs = [] ∧ (c.Early e ∨ Rejected app req route c) ∨
        Responded [] s ∧ ¬ Rejected app req route c ∧ c.thrown = some (.collectGarbage, e)) :=
    fun s hs => (triple_respond dispatched s hs.1).imp (fun _ _ h => ⟨h, hs.2⟩) fun _ _ h => h
  refine hresponse.bind fun _ => ?_
  exact triple_reach.imp (fun _ _ h => ⟨h.1.1, h.2⟩) fun _ _ h => .inr ⟨h.1.1, h.1.2, h.2⟩

lemma not_late_of_early {e : TException} (h : c.Early e) : ¬ c.Late := by
  obtain ⟨p, hp, hthrown⟩ := h
  rintro ⟨e', hlate, -⟩
  rw [hthrown] at hlate
  exact hp (Prod.mk.inj (Option.some.inj hlate)).1

/-- The controller of a request: a response, unless the client error comes behind it. -/
lemma answered_controller (hobject : object app (routing app req).controller = some c) :
    Answered (execute app req) ↔ (c.Late → Rejected app req (routing app req) c) := by
  refine execute_of_outcome (P := fun outputs =>
    Answered outputs ↔ (c.Late → Rejected app req (routing app req) c)) ?_
  have hprocess : process app req = callController app req (routing app req) c := by
    rw [process, hobject]
  rw [hprocess]
  refine outcome_tryCatch ((triple_callController .initial ⟨rfl, rfl⟩).imp ?_ fun _ _ h => h) ?_
  · rintro - s ⟨hresponded, hnone⟩
    refine iff_of_true (answered_responded hresponded) fun hlate => ?_
    obtain ⟨e, hthrown, -⟩ := hlate
    exact absurd hthrown (hnone e)
  · rintro e s (⟨hnil, hthrown⟩ | ⟨hresponded, hrejected, hthrown⟩)
    · refine (outcome_caught hnil).imp (fun _ _ h => iff_of_true h fun hlate => ?_) fun _ _ h => h
      exact hthrown.resolve_left fun hearly => not_late_of_early hearly hlate
    · refine (outcome_caught_late hresponded).imp (fun _ s' h => h.trans ?_) fun _ _ h => h
      constructor
      · rintro he ⟨e', hlate, he'⟩
        rw [hthrown] at hlate
        obtain rfl := (Prod.mk.inj (Option.some.inj hlate)).2
        exact absurd (he'.symm.trans he) Bool.true_eq_false.mp
      · intro h
        by_contra he
        exact hrejected (h ⟨e, hthrown, Bool.eq_true_of_not_eq_false he⟩)

lemma triple_sendRequestFile {file : QFile} :
    Triple (·.outputs = os) (sendRequestFile app file)
      (fun _ s => file.opens = true ∧ Responded os s ∨ file.opens = false ∧ s.outputs = os)
      exc := by
  refine Triple.bind (silent_header _) fun _ => triple_writeBody fun header => ?_
  cases hopens : file.opens with
  | true =>
    have hdevice : ∀ d ∈ some file.device, d.opens = true := fun d hd => by
      obtain rfl := Option.mem_some.mp hd
      exact hopens
    exact (triple_write hdevice).imp (fun _ _ h => .inl ⟨rfl, h⟩) fun _ _ h => h
  | false => exact (triple_write_unopened hopens).imp (fun _ _ h => .inr ⟨rfl, h⟩) fun _ _ h => h

/-- A request without a controller is answered if it gets a file that can be opened, or none. -/
lemma triple_sendStaticFile :
    Triple (·.outputs = []) (sendStaticFile app req route)
      (fun _ s => Answered s.outputs ↔ StaticAnswers app req route) exc := by
  unfold sendStaticFile
  have hno : ∀ hmethod : req.method ≠ .get, Triple (·.outputs = []) (pure () : Act Unit)
      (fun _ s => Answered s.outputs ↔ StaticAnswers app req route) exc := by
    intro hmethod s hs
    change Answered s.outputs ↔ _
    rw [hs]
    exact iff_of_false not_answered_nil fun h => hmethod h.1
  have hpage : req.method = .get → ¬ SendsFile app req route → ∀ s : State, Responded [] s →
      (Answered s.outputs ↔ StaticAnswers app req route) :=
    fun hget hnot s h => iff_of_true (answered_responded h) ⟨hget, fun hsends => absurd hsends hnot⟩
  split
  · next hget =>
    refine .ite (fun hfile => ?_) fun hfile => ?_
    · rw [Bool.and_eq_true] at hfile
      refine .ite (fun hsend => ?_) fun hsend => ?_
      · refine triple_sendRequestFile.imp (fun _ s h => ?_) fun _ _ h => h
        rcases h with ⟨hopens, hresponded⟩ | ⟨hopens, hnil⟩
        · exact iff_of_true (answered_responded hresponded) ⟨hget, fun _ => hopens⟩
        · rw [hnil]
          refine iff_of_false not_answered_nil fun h => ?_
          exact absurd (h.2 ⟨hfile.1, hfile.2, hsend⟩) (Bool.eq_false_iff.mp hopens)
      · exact (triple_writeResponse 304).imp (fun _ _ h => hpage hget (fun h => hsend h.2.2) _ h)
          fun _ _ h => h
    · have hnot : ¬ SendsFile app req route := fun h =>
        hfile (Bool.and_eq_true_iff.mpr ⟨h.1, h.2.1⟩)
      refine .ite (fun _ => ?_) fun _ => Triple.bind (silent_header _) fun _ => ?_
      · exact (triple_writeResponse 404).imp (fun _ _ h => hpage hget hnot _ h) fun _ _ h => h
      · exact (triple_writeResponse 302).imp (fun _ _ h => hpage hget hnot _ h) fun _ _ h => h
  · next hpost => exact hno (by rw [hpost]; decide)
  · next hget hpost => exact hno hget

lemma answered_static (hobject : object app (routing app req).controller = none) :
    Answered (execute app req) ↔ StaticAnswers app req (routing app req) := by
  refine execute_of_outcome (P := fun outputs =>
    Answered outputs ↔ StaticAnswers app req (routing app req)) ?_
  have hprocess : process app req = sendStaticFile app req (routing app req) := by
    rw [process, hobject]
  rw [hprocess]
  exact outcome_tryCatch_of_returns (triple_sendStaticFile .initial rfl)

variable (app req)

/-- **A request is answered once** when a controller is found, unless the session garbage
collection throws a client error behind the response; without a controller when the method is GET
and a file that is to be sent can be opened. -/
theorem execute_iff :
    Answered (execute app req) ↔
      (∀ c, object app (routing app req).controller = some c →
        c.Late → Rejected app req (routing app req) c) ∧
      (object app (routing app req).controller = none →
        StaticAnswers app req (routing app req)) := by
  cases hobject : object app (routing app req).controller with
  | none =>
    rw [answered_static hobject]
    exact ⟨fun h => ⟨fun c hc => absurd hc.symm (Option.some_ne_none c), fun _ => h⟩,
      fun h => h.2 rfl⟩
  | some c =>
    rw [answered_controller hobject]
    refine ⟨fun h => ⟨fun c' hc' => ?_, fun hnone => absurd hnone (Option.some_ne_none c)⟩,
      fun h => h.1 c rfl⟩
    obtain rfl := Option.some.inj hc'
    exact h

/-- A controller whose only action renders an empty text. -/
def itemController : TActionController where
  sessionEnabled _ := true
  csrfProtectionEnabled := true
  exceptionActionsOfCsrfProtection := []
  preFilter := ([], true)
  slot method argcnt :=
    if method = ascii "index" ∧ argcnt = 0 then some fun _ => [.render (some [])] else none
  postFilter := []
  rollbackRequested := false
  thrown := none

/-- An application with this controller and without files. -/
def itemApp (c : TActionController) : App where
  unicode := latin
  fromUtf8 := fromAscii
  toEncoded := latin.toUtf8
  fromHttpDateTimeString _ := none
  toHttpDateTimeString _ := []
  sha1Hex := id
  codecForHttpOutput := ascii "UTF-8"
  directViewRenderMode := false
  enableCsrfProtectionModule := true
  sessionAutoIdRegeneration := false
  sessionStoreIsCookie := false
  sessionCsrfProtectionKey := text "_csrfId"
  sessionSecret := []
  routes := []
  objectFactories name := if name = ascii "itemcontroller" then some c else none
  metaTypes _ := none
  findSession _ := emptySession
  generateId := ascii "3f"
  publicPath := text "public/"
  file _ := ⟨false, false, false, false, [], 0, []⟩

def request (method : HttpMethod) (target : QByteArray) : THttpRequest :=
  ⟨{ reqUri := target }, method, [], []⟩

/-- A request that posts to a path without a controller gets no answer, and the connection stays;
one behind whose response a client error is thrown gets two. -/
theorem not_answered_post :
    ¬ Answered (execute (itemApp itemController) (request .post (ascii "/nothing"))) ∧
      ¬ Answered (execute
        (itemApp { itemController with thrown := some (.collectGarbage, .clientError 400) })
        (request .get (ascii "/item"))) := by
  decide +kernel

example : execute (itemApp itemController) (request .get (ascii "/item")) =
    [.response ⟨200, ascii "OK", ascii "text/html; charset=UTF-8", [], []⟩ []] := by
  decide +kernel

end TreeFrog.ActionContext
