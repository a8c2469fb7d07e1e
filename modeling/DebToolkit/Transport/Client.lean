import Mathlib.Data.List.DropRight
import Mathlib.Tactic.IntervalCases
import DebToolkit.Hoare
import DebToolkit.Text

/-!
# Requests

`AptTransport`: `fetch_bytes` with its retries, and `fetch_release`. The server is whatever answers the
requests, with a state of its own; what the libraries compute is a parameter.
-/

namespace DebToolkit
namespace Transport

open Text

abbrev Bytes := List UInt8

inductive TransportError
  /-- A status other than 2xx. -/
  | http (status : ℕ)
  | network (message : String)
  | io (message : String)
  | allMirrorsFailed
  | unsupportedCompression (format : String)
  | decompressError (message : String)
  | pdiff (message : String)
  deriving DecidableEq, Repr

/-- How a call ends that does not return `Ok`. -/
inductive Failure
  | err (e : TransportError)
  | panic
  deriving DecidableEq, Repr

/-- What other crates compute. -/
structure External where
  /-- The digest of `Sha256`. -/
  sha256 : Bytes → Bytes
  /-- `GzDecoder::read_to_end`. -/
  gunzip : Bytes → Except String Bytes
  /-- `String::from_utf8_lossy`. -/
  fromUtf8Lossy : Bytes → Str
  /-- The `Debug` of `str`. -/
  debug : Str → Str

/-- `hex::encode`. -/
def hexEncode (digest : Bytes) : Str :=
  digest.flatMap fun b => [Nat.digitChar (b.toNat / 16), Nat.digitChar (b.toNat % 16)]

/-- `sha256_hex`. -/
def External.sha256Hex (x : External) (bytes : Bytes) : Str := hexEncode (x.sha256 bytes)

/-- The digits are lower case. -/
theorem toAsciiLowercase_hexEncode (digest : Bytes) :
    toAsciiLowercase (hexEncode digest) = hexEncode digest := by
  have hdigit : ∀ n < 16, (Nat.digitChar n).toLower = Nat.digitChar n := by
    intro n hn
    interval_cases n <;> decide
  induction digest with
  | nil => rfl
  | cons b digest ih =>
    have hb : b.toNat < 256 := b.toNat_lt
    rw [hexEncode, List.flatMap_cons, toAsciiLowercase, List.map_append]
    congr 1
    simp only [List.map_cons, List.map_nil]
    rw [hdigit _ (by omega), hdigit _ (by omega)]

/-- A `GET` request; `range` is the start of an open-ended `Range` header. -/
structure Request where
  url : Str
  range : Option ℕ
  deriving DecidableEq, Repr

/-- The chunks of the body come until it is complete or breaks off with an error. -/
structure Response where
  status : ℕ
  contentLength : Option ℕ
  chunks : List Bytes
  error : Option String
  deriving DecidableEq, Repr

/-- `StatusCode::is_success`. -/
def Response.isSuccess (resp : Response) : Bool := 200 ≤ resp.status && resp.status < 300

/-- The server and the network between, which see and change a state `σ`, and `max_retries`. -/
structure Client (σ : Type) where
  maxRetries : ℕ
  send : Request → StateM σ (Except String Response)

abbrev Net (σ : Type) := ExceptT Failure (StateM σ)

variable {σ : Type}

/-- The body of an answer that is a success. -/
def Response.body (resp : Response) : Except Failure Bytes :=
  if resp.isSuccess then
    match resp.error with
    | some e => .error (.err (.network e))
    | none => .ok resp.chunks.flatten
  else .error (.err (.http resp.status))

def Client.fetchOnce (client : Client σ) (url : Str) : Net σ Bytes := ExceptT.mk do
  match ← client.send ⟨url, none⟩ with
  | .error e => return .error (.err (.network e))
  | .ok resp => return resp.body

/-- One attempt and `n` retries; the last error is returned. -/
def Client.attempts (client : Client σ) (url : Str) : ℕ → Net σ Bytes
  | 0 => client.fetchOnce url
  | n + 1 => tryCatch (client.fetchOnce url) fun _ => client.attempts url n

/-- `fetch_bytes`. -/
def Client.fetchBytes (client : Client σ) (url : Str) : Net σ Bytes :=
  client.attempts url client.maxRetries

/-- `trim_end_matches('/')`. -/
def trimSlashes (s : Str) : Str := s.rdropWhile (· = '/')

/-- `fetch_release`: `InRelease`, or `Release` where that is not found. -/
def Client.fetchRelease (client : Client σ) (baseUrl suite : Str) : Net σ Bytes :=
  let base := trimSlashes baseUrl ++ "/dists/".toList ++ suite
  tryCatch (client.fetchBytes (base ++ "/InRelease".toList)) fun e =>
    if e = .err (.http 404) then client.fetchBytes (base ++ "/Release".toList) else throw e

end Transport
end DebToolkit
