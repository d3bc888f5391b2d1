import Mathlib.Data.List.DropRight
import MongrelDB.Client.Http

/-!
# What `request` does with libcurl

`Impl` with its constructors, and `Impl::request` with the easy handle, the list of headers and the
options that it sets. Everything that allocates may fail: an append then returns null, a string
throws `std::bad_alloc`, and `curl_easy_setopt` leaves its option as it is. So it does where libcurl
refuses a value. The code does not look at what `curl_easy_setopt` returns.
-/

namespace MongrelDB

open Text Traced

/-! ### The client -/

structure Impl where
  baseUrl : Bytes := []
  token : Bytes := []
  username : Bytes := []
  password : Bytes := []
  timeoutSeconds : Int := 30

namespace Impl

def kDefaultUrl : Bytes := ascii "http://127.0.0.1:8453"

/-- `while (!base_url.empty() && base_url.back() == '/') base_url.pop_back()` -/
def popSlashes (url : Bytes) : Bytes := url.rdropWhile (· == slash)

/-- `MongrelDBClient(url)` -/
def ofUrl (url : Bytes) : Impl :=
  { baseUrl := popSlashes (if url.isEmpty then kDefaultUrl else url) }

/-- `MongrelDBClient(url, token)` -/
def ofToken (url token : Bytes) : Impl := { ofUrl url with token := token }

/-- `MongrelDBClient(url, BasicAuth)` -/
def ofBasicAuth (url username password : Bytes) : Impl :=
  { ofUrl url with username := username, password := password }

def setTimeout (impl : Impl) (seconds : Int) : Impl :=
  { impl with timeoutSeconds := if seconds > 0 then seconds else 30 }

end Impl

/-! ### libcurl -/

/-- The options of an easy handle, as far as `request` sets them. -/
structure EasyOptions where
  url : Bytes := []
  customRequest : Bytes := []
  /-- The list of headers is that of `request`. -/
  httpHeader : Bool := false
  writeFunction : Bool := false
  writeData : Bool := false
  timeout : Int := 0
  connectTimeout : Int := 300
  noSignal : Bool := false
  maxFileSizeLarge : Nat := 0
  postFields : Option Bytes := none
  postFieldSize : Int := -1
  userPwd : Option Bytes := none
  /-- `CURLAUTH_BASIC`, which is also the default -/
  httpAuth : Bool := true

/-- The options by their names. -/
inductive EasyOption where
  | url (s : Bytes)
  | customRequest (s : Bytes)
  | httpHeader
  | writeFunction
  | writeData
  | timeout (seconds : Int)
  | connectTimeout (seconds : Int)
  | noSignal
  | maxFileSizeLarge (size : Nat)
  | postFields (body : Bytes)
  | postFieldSize (size : Int)
  | userPwd (s : Bytes)
  | httpAuthBasic

def EasyOption.set (o : EasyOptions) : EasyOption → EasyOptions
  | url s => { o with url := s }
  | customRequest s => { o with customRequest := s }
  | httpHeader => { o with httpHeader := true }
  | writeFunction => { o with writeFunction := true }
  | writeData => { o with writeData := true }
  | timeout seconds => { o with timeout := seconds }
  | connectTimeout seconds => { o with connectTimeout := seconds }
  | noSignal => { o with noSignal := true }
  | maxFileSizeLarge size => { o with maxFileSizeLarge := size }
  | postFields body => { o with postFields := some body }
  | postFieldSize size => { o with postFieldSize := size }
  | userPwd s => { o with userPwd := some s }
  | httpAuthBasic => { o with httpAuth := true }

/-- One step of the block in which the transfer is set up. -/
inductive EasyStep where
  /-- `headers = curl_slist_append(headers, text); if (!headers) throw std::bad_alloc()` -/
  | append (text : Bytes)
  /-- a string is concatenated -/
  | concat
  | setopt (option : EasyOption)

/-- What `request` holds while it sets the transfer up; the list of headers is null at first. -/
structure Easy where
  headers : Option (List Bytes) := none
  options : EasyOptions := {}

inductive EasyEvent where
  /-- `curl_easy_init` returned a handle -/
  | init
  /-- a node of the list was allocated -/
  | node (text : Bytes)
  /-- `curl_easy_setopt` -/
  | setopt (option : EasyOption)
  | perform (easy : Easy)
  /-- `curl_easy_getinfo` -/
  | getinfo
  /-- `curl_slist_free_all` of a list with these nodes -/
  | freeAll (nodes : List Bytes)
  /-- `curl_easy_cleanup` -/
  | cleanup

/-- libcurl and the allocator: whether there is a handle, which of the steps run out of memory,
which options are refused for their value, and what becomes of a transfer. -/
structure Lib where
  init : Bool
  fails : Nat → Bool
  refuses : EasyOption → Bool
  perform : Easy → CurlCode × Int × Bytes

/-- How `request` stops early. -/
inductive Failure where
  | badAlloc
  | stop (s : Stop)
  deriving DecidableEq

/-! ### `Impl::request` -/

/-- What `request` returns or throws after the transfer. -/
def afterTransfer (plat : Platform) (rc : CurlCode) (httpCode : Int) (response : Bytes) :
    Except Stop Bytes :=
  if rc = .filesizeExceeded ∨ rc = .writeError ∨ response.length > kMaxResponseBytes then
    .error (.thrown (.query (ascii "mongreldb: response body exceeds " ++
      decimal kMaxResponseBytes ++ ascii " bytes")))
  else match rc with
    | .other strerror =>
      .error (.thrown (.query (ascii "mongreldb: network error: " ++ strerror)))
    | _ =>
      if httpCode < 200 ∨ httpCode ≥ 300 then (throwEnvelope plat httpCode response).out
      else .ok response

/-- The step is taken as the `k`-th; when it throws, `request` is left as it was or with a null
list. -/
def EasyStep.run (lib : Lib) (k : Nat) (easy : Easy) : EasyStep → Run EasyEvent Easy Easy
  | append text =>
    if lib.fails k then Run.stop { easy with headers := none }
    else do
      Run.emit (.node text)
      return { easy with headers := some (easy.headers.getD [] ++ [text]) }
  | concat => if lib.fails k then Run.stop easy else return easy
  | setopt option => do
    Run.emit (.setopt option)
    if lib.fails k || lib.refuses option then return easy
    else return { easy with options := option.set easy.options }

/-- The steps are taken from the `k`-th of all. -/
def runSteps (lib : Lib) : Nat → Easy → List EasyStep → Run EasyEvent Easy Easy
  | _, easy, [] => return easy
  | k, easy, s :: steps => do
    let easy ← s.run lib k easy
    runSteps lib (k + 1) easy steps

namespace Impl

/-- The headers that every request has, and those with a body. -/
def headerSteps : Option Bytes → List EasyStep
  | none => [.append (ascii "Accept: application/json")]
  | some _ =>
    [.append (ascii "Accept: application/json"), .append (ascii "Content-Type: application/json")]

def options (impl : Impl) (method : String) (url : Bytes) : List EasyOption :=
  [.url (cstr url), .customRequest (ascii method), .httpHeader, .writeFunction, .writeData,
    .timeout impl.timeoutSeconds, .connectTimeout impl.timeoutSeconds, .noSignal,
    .maxFileSizeLarge kMaxResponseBytes]

def bodyOptions : Option Bytes → List EasyOption
  | none => []
  | some body => [.postFields body, .postFieldSize body.length]

def credentialSteps (impl : Impl) : List EasyStep :=
  if !impl.token.isEmpty then
    [.concat, .append (cstr (ascii "Authorization: Bearer " ++ impl.token)), .setopt .httpHeader]
  else if !impl.username.isEmpty then
    [.concat, .setopt (.userPwd (cstr (impl.username ++ colon :: impl.password))),
      .setopt .httpAuthBasic]
  else []

/-- The block in which the transfer is set up. -/
def setup (impl : Impl) (method : String) (url : Bytes) (body : Option Bytes) : List EasyStep :=
  headerSteps body ++ (impl.options method url ++ bodyOptions body).map EasyStep.setopt ++
    impl.credentialSteps

/-- `url` -/
def urlOf (impl : Impl) (path : Bytes) : Bytes :=
  impl.baseUrl ++ (if path.head? = some slash then [] else [slash]) ++ path

def request (impl : Impl) (plat : Platform) (lib : Lib) (method : String) (path : Bytes)
    (body : Option Bytes) : Run EasyEvent Failure Bytes :=
  if !lib.init then
    Run.stop (.stop (.thrown (.query (ascii "mongreldb: curl_easy_init failed"))))
  else do
    Run.emit .init
    (runSteps lib 0 {} (impl.setup method (impl.urlOf path) body)).handle
      (fun easy => do
        -- `catch (...)`
        match easy.headers with
        | some headers => Run.emit (.freeAll headers)
        | none => pure ()
        Run.emit .cleanup
        Run.stop .badAlloc)
      fun easy => do
        Run.emit (.perform easy)
        let (rc, httpCode, response) := lib.perform easy
        Run.emit .getinfo
        Run.emit (.freeAll (easy.headers.getD []))
        Run.emit .cleanup
        ⟨[], (afterTransfer plat rc httpCode response).mapError .stop⟩

end Impl

end MongrelDB
