import Aloelite.S3
import Aloelite.Library.UrlText

/-! AWS Signature Version 4 as `sigv4.py` verifies it, and what the dispatcher of `s3.py`
reads of a request that passed. -/
namespace Aloelite

open Fallible UrlText

namespace SigV4

def ALGORITHM : Text := "AWS4-HMAC-SHA256".toList

def STREAMING_PAYLOAD : Text := "STREAMING-AWS4-HMAC-SHA256-PAYLOAD".toList

def UNSIGNED_PAYLOAD : Text := "UNSIGNED-PAYLOAD".toList

/-- in microseconds -/
def MAX_SKEW : Int := 15 * 60 * 1000000

/-- `SigV4Error` -/
structure SigV4Error where
  code : String
  message : String
  status : ℕ := 403
  deriving DecidableEq, Repr

structure Credentials where
  secret : Text
  buckets : Option (List Text)
  deriving DecidableEq, Repr

/-- A time `strptime` read with `%Y%m%dT%H%M%SZ`: its date as `strftime("%Y%m%d")` writes
it, and the microseconds since the epoch. -/
structure Stamp where
  date : Text
  micros : Int
  deriving DecidableEq, Repr

/-- What the module takes from `hashlib`, `hmac` and `datetime`, and Python's `repr`. -/
structure Hashing where
  sha256 : Bytes → Bytes
  hmac : Bytes → Bytes → Bytes
  strptime : Text → Option Stamp
  repr : Text → String

/-- Header names are compared without case. -/
def lower (name : Text) : Text := name.map Char.toLower

/-- `headers.get` -/
def getHeader (headers : List (Text × Text)) (name : Text) : Option Text :=
  (headers.find? (fun h => lower h.1 = lower name)).map Prod.snd

def hexDigitLower (n : ℕ) : Char := (hexDigit n).toLower

/-- `hexdigest` -/
def hexdigest (bs : Bytes) : Text :=
  bs.flatMap (fun b => [hexDigitLower (b.toNat / 16), hexDigitLower (b.toNat % 16)])

/-! ### Canonical forms -/

/-- `_uri_encode` -/
def uriEncode (value : Text) (encodeSlash : Bool) : Text :=
  quote (if encodeSlash then ['/'] else []) value

def canonicalUri (path : Text) : Text := if path = [] then ['/'] else uriEncode path true

/-- The parts of a query string; empty ones are passed over. -/
def queryParts (queryString : Text) : List Text := (queryString.splitOn '&').filter (· ≠ [])

/-- `part.partition("=")`, less the separator. -/
def partition (part : Text) : Text × Text :=
  (part.takeWhile (· ≠ '='), (part.dropWhile (· ≠ '=')).drop 1)

def canonicalPair (part : Text) : Text × Text :=
  (uriEncode (unquote (partition part).1) false, uriEncode (unquote (partition part).2) false)

def canonicalQuery (queryString : Text) : Text :=
  ['&'].intercalate
    ((((queryParts queryString).map canonicalPair).insertionSort (fun p q => toLex p ≤ toLex q)).map
      (fun p => p.1 ++ '=' :: p.2))

/-- `" ".join(value.split())` -/
def squeeze (value : Text) : Text := [' '].intercalate ((value.splitOnP isSpace).filter (· ≠ []))

/-- One line for each signed header, each with its end. -/
def canonicalHeaders (H : Hashing) (headers : List (Text × Text)) :
    List Text → Except SigV4Error Text
  | [] => .ok []
  | name :: signed => do
    let value ← orRaise (getHeader headers name)
      { code := "SignatureDoesNotMatch", message := "signed header " ++ H.repr name ++
        " is not present on the request" }
    let rest ← canonicalHeaders H headers signed
    return name ++ ':' :: squeeze value ++ '\n' :: rest

/-- `build_canonical_request` -/
def canonicalRequest (H : Hashing) (method path queryString : Text) (headers : List (Text × Text))
    (signed : List Text) (payloadHash : Text) : Except SigV4Error Text := do
  let lines ← canonicalHeaders H headers signed
  return ['\n'].intercalate
    [method, canonicalUri path, canonicalQuery queryString, lines,
      [';'].intercalate signed, payloadHash]

def signingKey (H : Hashing) (secret date region service : Text) : Bytes :=
  let k := H.hmac (utf8 ("AWS4".toList ++ secret)) (utf8 date)
  let k := H.hmac k (utf8 region)
  let k := H.hmac k (utf8 service)
  H.hmac k (utf8 "aws4_request".toList)

def stringToSign (H : Hashing) (amzDate scope canonical : Text) : Text :=
  ['\n'].intercalate [ALGORITHM, amzDate, scope, hexdigest (H.sha256 (utf8 canonical))]

/-! ### `verify` -/

/-- What `_parse_authorization` returns. -/
structure Authorization where
  accessKey : Text
  date : Text
  region : Text
  service : Text
  signed : List Text
  signature : Text
  deriving DecidableEq, Repr

/-- The rest after a text. -/
def after (lit : String) (t : Text) : Option Text :=
  if lit.toList <+: t then some (t.drop lit.toList.length) else none

/-- `\s+` and its rest -/
def afterSpaces (t : Text) : Option Text :=
  if (t.head?.any isSpace) then some (t.dropWhile isSpace) else none

/-- `[^,]+` and its rest -/
def untilComma (t : Text) : Option (Text × Text) :=
  if t.takeWhile (· ≠ ',') = [] then none else some (t.takeWhile (· ≠ ','), t.dropWhile (· ≠ ','))

/-- The groups `cred`, `signed` and `sig` of `_AUTH_RE`. -/
def matchAuth (header : Text) : Option (Text × Text × Text) := do
  let t ← after "AWS4-HMAC-SHA256" header
  let t ← afterSpaces t
  let t ← after "Credential=" t
  let (cred, t) ← untilComma t
  let t ← after "," t
  let t ← after "SignedHeaders=" (t.dropWhile isSpace)
  let (signed, t) ← untilComma t
  let t ← after "," t
  let t ← after "Signature=" (t.dropWhile isSpace)
  let sig := t.takeWhile (fun c => (hexValue c).isSome)
  if sig = [] ∨ (t.dropWhile (fun c => (hexValue c).isSome)).dropWhile isSpace ≠ [] then none
  else some (cred, signed, sig)

/-- `_parse_authorization` -/
def parseAuthorization (header : Text) : Except SigV4Error Authorization := do
  let (cred, signed, sig) ← orRaise (matchAuth (strip header))
    { code := "AuthorizationHeaderMalformed",
      message := "could not parse the Authorization header" }
  match cred.splitOn '/' with
  | [accessKey, date, region, service, last] =>
    refuse (last ≠ "aws4_request".toList)
      { code := "AuthorizationHeaderMalformed",
        message := "Credential must be <key>/<date>/<region>/<service>/aws4_request" }
    -- empty names between semicolons are dropped
    let signed := (signed.splitOn ';').filter (· ≠ [])
    refuse (signed = []) { code := "AuthorizationHeaderMalformed",
                           message := "SignedHeaders is empty" }
    return ⟨accessKey, date, region, service, signed, lower sig⟩
  | _ =>
    .error { code := "AuthorizationHeaderMalformed",
             message := "Credential must be <key>/<date>/<region>/<service>/aws4_request" }

/-- `_check_skew` -/
def checkSkew (H : Hashing) (amzDate scopeDate : Text) (now : Int) : Except SigV4Error Unit := do
  let stamp ← orRaise (H.strptime amzDate)
    { code := "AuthorizationHeaderMalformed", message := "x-amz-date " ++ H.repr amzDate ++
      " is not ISO8601 basic" }
  refuse (stamp.date ≠ scopeDate)
    { code := "AuthorizationHeaderMalformed",
      message := "the credential scope date disagrees with x-amz-date" }
  refuse (MAX_SKEW < |now - stamp.micros|)
    { code := "RequestTimeTooSkewed",
      message := "the request time is too far from the server's clock" }

/-- `verify`; the declared hash is that of the body, or none is declared. -/
def verify (H : Hashing) (method path queryString : Text) (headers : List (Text × Text))
    (bodyHash : Option Text) (lookup : Text → Option Credentials) (now : Int) :
    Except SigV4Error (Text × Credentials) := do
  let auth ← orRaise ((getHeader headers "Authorization".toList).filter (· ≠ []))
    { code := "AccessDenied", message := "missing Authorization header", status := 401 }
  let a ← parseAuthorization auth
  let amzDate ← orRaise ((getHeader headers "X-Amz-Date".toList).filter (· ≠ []))
    { code := "AccessDenied", message := "missing X-Amz-Date header" }
  checkSkew H amzDate a.date now
  let declared := ((getHeader headers "X-Amz-Content-Sha256".toList).filter (· ≠ [])).getD
    UNSIGNED_PAYLOAD
  refuse (declared = STREAMING_PAYLOAD)
    { code := "NotImplemented"
      message := "chunked upload signing (STREAMING-AWS4-HMAC-SHA256-PAYLOAD) is not supported " ++
        "by this endpoint; the body must carry a payload hash or UNSIGNED-PAYLOAD"
      status := 501 }
  -- without a declared hash the body is not signed
  refuse (declared ≠ UNSIGNED_PAYLOAD ∧ bodyHash.any (· ≠ declared))
    { code := "XAmzContentSHA256Mismatch"
      message := "the body does not hash to the value in x-amz-content-sha256"
      status := 400 }
  let creds ← orRaise (lookup a.accessKey)
    { code := "InvalidAccessKeyId", message := "unknown access key id" }
  let canonical ← canonicalRequest H method path queryString headers a.signed declared
  let scope := ['/'].intercalate [a.date, a.region, a.service, "aws4_request".toList]
  let expected := hexdigest (H.hmac (signingKey H creds.secret a.date a.region a.service)
    (utf8 (stringToSign H amzDate scope canonical)))
  refuse (expected ≠ a.signature) { code := "SignatureDoesNotMatch",
                                    message := "computed signature does not match" }
  return (a.accessKey, creds)

end SigV4

/-! ### The dispatcher -/

namespace S3

open SigV4

inductive Method where
  | get
  | head
  | put
  | post
  | delete
  deriving DecidableEq, Repr

def Method.text : Method → Text
  | get => "GET".toList
  | head => "HEAD".toList
  | put => "PUT".toList
  | post => "POST".toList
  | delete => "DELETE".toList

/-- A request as Werkzeug hands it over: the path is decoded and has its first slash, the
query string is bytes as they came, and `Host` has no blanks. -/
structure Request where
  method : Method
  path : Text
  queryString : Text := []
  headers : List (Text × Text)
  body : Bytes := []
  path_rooted : path.head? = some '/' := by decide
  query_bytes : ∀ c ∈ queryString, c.toNat < 0x100 := by decide
  host_plain : ∀ host ∈ getHeader headers "Host".toList, ∀ c ∈ host, isSpace c = false := by decide

/-- What the blueprint is made with. `server` is `request.host` where no `Host` came;
`route` splits a path into bucket and rest by the two rules of the blueprint, and a bucket
it finds is not empty. -/
structure Blueprint where
  credentials : Text → Option Credentials
  virtualHostSuffix : Option Text := none
  maxBodyBytes : ℕ := 64 * 1024 * 1024
  server : Text
  route : Text → Text × Text
  server_plain : ∀ c ∈ server, isSpace c = false := by decide
  route_bucket : ∀ path, (route path).1 ≠ []

/-- The arguments of a form: the first value of each name. -/
def formArg (queryString name : Text) : Option Text :=
  (((queryParts queryString).map
    (fun part => (formValue (partition part).1, formValue (partition part).2))).find?
    (fun p => p.1 = name)).map Prod.snd

/-- The arguments the handlers read. Of `uploads` and `delete` they ask only whether they
are there. -/
structure Args where
  pfx : Option Text
  delimiter : Option Text
  marker : Option Text
  maxKeys : Option Text
  uploadId : Option Text
  partNumber : Option Text
  uploads : Bool
  delete : Bool
  deriving DecidableEq, Repr

def Args.of (queryString : Text) : Args where
  pfx := formArg queryString "prefix".toList
  delimiter := formArg queryString "delimiter".toList
  marker := formArg queryString "marker".toList
  maxKeys := formArg queryString "max-keys".toList
  uploadId := formArg queryString "uploadId".toList
  partNumber := formArg queryString "partNumber".toList
  uploads := (formArg queryString "uploads".toList).isSome
  delete := (formArg queryString "delete".toList).isSome

/-- `t.strip("/")` -/
def stripSlashes (t : Text) : Text := (t.dropWhile (· = '/')).rdropWhile (· = '/')

/-- `host[: -(len(suffix) + 1)]` of a host that ends with the suffix. -/
def virtualBucket (suffix : Option Text) (host : Text) : Option Text :=
  match suffix with
  | none => none
  | some suffix =>
    let suffix' := suffix.dropWhile (· = '.')
    if suffix ≠ [] ∧ '.' :: suffix' <:+ host then
      some (host.take (host.length - (suffix'.length + 1))) else none

/-- `_split_target` -/
def splitTarget (suffix : Option Text) (host bucketInPath rest : Text) :
    Except S3Error (Text × Text) :=
  match virtualBucket suffix (host.takeWhile (· ≠ ':')) with
  | some bucket =>
    .ok (bucket, stripSlashes
      (unquote ((if bucketInPath = [] then [] else bucketInPath ++ ['/']) ++ rest)))
  | none =>
    if bucketInPath = [] then .error ⟨"InvalidBucketName", "no bucket in the request", 400⟩
    else .ok (bucketInPath, stripSlashes (unquote rest))

/-- What a handler acts on. -/
structure Acted where
  method : Method
  bucket : Text
  key : Text
  args : Args
  body : Bytes
  deriving DecidableEq, Repr

variable (H : Hashing) (B : Blueprint) (now : Int) (r : Request)

def Request.host : Text := (getHeader r.headers "Host".toList).getD B.server

/-- The body, where the method has one. -/
def Request.data : Bytes := if r.method = .put ∨ r.method = .post then r.body else []

/-- `_authenticate` -/
def authenticate : Except S3Error Credentials :=
  match verify H r.method.text r.path r.queryString r.headers (some (hexdigest (H.sha256 r.data)))
    B.credentials now with
  | .ok (_, creds) => .ok creds
  | .error e => .error ⟨e.code, e.message, e.status⟩

/-- What `_dispatch` acts on. -/
def Request.acted : Except S3Error Acted :=
  (splitTarget B.virtualHostSuffix (r.host B) (B.route r.path).1 (B.route r.path).2).map
    (fun target => ⟨r.method, target.1, target.2, .of r.queryString, r.data⟩)

/-- `_dispatch` up to the handler. -/
def dispatch : Except S3Error (Credentials × Acted) := do
  refuse (B.maxBodyBytes < r.data.length)
    ⟨"EntityTooLarge", "request body exceeds this endpoint's limit of " ++
      toString B.maxBodyBytes ++ " bytes", 400⟩
  let creds ← authenticate H B now r
  let acted ← r.acted B
  return (creds, acted)

end S3

end Aloelite
