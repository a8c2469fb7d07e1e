import Mathlib.Data.List.Forall2
import DebToolkit.Prog
import DebToolkit.Transport.Client

/-!
# Retries, mirrors and formats

What `AptTransport` requests when answers fail: `fetch_bytes` repeats a request, `fetch_with_mirrors` goes
on to the next mirror, and `fetch_index` to the next format, but only from one that is not found. Each is a
program over the requests, and makes one search for the first success (`Prog.firstOk`).

* `serve_fetchBytes`, `serve_fetchRelease`: on a server they do what the functions of `Client` do;
* `Failed`, `Delivered`: the requests for one URL, in vain or with the answer that counts;
* `fetchWithMirrors_spec`, `fetchIndex_spec`: all requests that are sent, and what the result is of them.
-/

namespace DebToolkit
namespace Transport

open Text Prog Hoare

/-- The answer to a request, or what the connection failed with. -/
abbrev Answer : Request → Type := fun _ => Except String Response

/-- A function that sends requests. -/
abbrev Http := ExceptT Failure (Prog Request Answer)

/-- The function on a server. -/
def Http.serve {σ α : Type} (m : Http α) (client : Client σ) : Net σ α :=
  ExceptT.mk (Prog.serve client.send m.run)

/-! ### The functions -/

/-- What a request fails with, or the body that it brings. -/
def answered : Except String Response → Except Failure Bytes
  | .error e => .error (.err (.network e))
  | .ok resp => resp.body

def fetchOnce (url : Str) : Http Bytes := ExceptT.mk (answered <$> Prog.ask ⟨url, none⟩)

/-- `fetch_bytes`; there is at least one attempt, so that `last_err` is there to unwrap. -/
def fetchBytes (maxRetries : ℕ) (url : Str) : Http Bytes :=
  firstOk (fun _ => true) (List.replicate (maxRetries + 1) (fetchOnce url)) .panic

def fetchWithMirrors (maxRetries : ℕ) (urls : List Str) : Http Bytes :=
  ExceptT.adapt (fun _ => .err .allMirrorsFailed)
    (firstOk (fun _ => true) (urls.map (fetchBytes maxRetries)) (.err .allMirrorsFailed))

/-- `StatusCode::NOT_FOUND`. -/
def notFound : Failure := .err (.http 404)

def fetchRelease (maxRetries : ℕ) (baseUrl suite : Str) : Http Bytes :=
  let base := trimSlashes baseUrl ++ "/dists/".toList ++ suite
  firstOk (· = notFound) (["/InRelease".toList, "/Release".toList].map fun file =>
    fetchBytes maxRetries (base ++ file)) notFound

/-- The decoders that read to the end. -/
structure Decoders where
  gz : Bytes → Except String Bytes
  xz : Bytes → Except String Bytes
  zst : Bytes → Except String Bytes

def decoded (result : Except String Bytes) : Except Failure Bytes :=
  result.mapError fun e => .err (.decompressError e)

def decompressByUrl (x : Decoders) (url : Str) (raw : Bytes) : Except Failure Bytes :=
  -- `url.split('?').next()`
  let path := url.takeWhile (· ≠ '?')
  if ".gz".toList <:+ path then decoded (x.gz raw)
  else if ".xz".toList <:+ path then decoded (x.xz raw)
  else if ".zst".toList <:+ path then decoded (x.zst raw)
  else .ok raw

def fetchDecompressed (x : Decoders) (maxRetries : ℕ) (url : Str) : Http Bytes := do
  let raw ← fetchBytes maxRetries url
  ExceptT.mk (pure (decompressByUrl x url raw))

/-- The URLs of the formats of an index, in the order in which they are tried. -/
def indexUrls (baseUrl suite component arch : Str) : List Str :=
  let url := trimSlashes baseUrl ++ "/dists/".toList ++ suite ++ '/' :: component ++ "/binary-".toList ++
    arch ++ "/Packages".toList
  [url ++ ".xz".toList, url ++ ".gz".toList, url]

def fetchIndex (x : Decoders) (maxRetries : ℕ) (baseUrl suite component arch : Str) : Http Bytes :=
  firstOk (· = notFound) ((indexUrls baseUrl suite component arch).map (fetchDecompressed x maxRetries))
    notFound

/-! ### On a server -/

section Server

variable {σ : Type} {client : Client σ}

theorem serve_fetchOnce (client : Client σ) (url : Str) :
    (fetchOnce url).serve client = client.fetchOnce url := by
  rw [Client.fetchOnce, Http.serve, fetchOnce]
  refine congrArg ExceptT.mk (bind_congr fun answer => ?_)
  cases answer <;> rfl

theorem serve_tryCatch {α : Type} (m : Http α) (k : Failure → Http α) :
    Http.serve (tryCatch m k) client = tryCatch (m.serve client) fun e => (k e).serve client := by
  apply ExceptT.ext
  show Prog.serve client.send (tryCatch m k).run = _
  rw [ExceptT.run_tryCatch, ExceptT.run_tryCatch, Prog.serve_bind]
  refine bind_congr fun r => ?_
  cases r <;> rfl

/-- A search that ends with its first program. -/
theorem tryCatch_throw (m : Net σ Bytes) : tryCatch m (fun e => throw e) = m := by
  apply ExceptT.ext
  rw [ExceptT.run_tryCatch]
  refine (bind_congr fun r => ?_).trans (bind_pure m.run)
  cases r <;> rfl

theorem serve_attempts (client : Client σ) (url : Str) (n : ℕ) (e : Failure) :
    Http.serve (firstOk (fun _ => true) (List.replicate (n + 1) (fetchOnce url)) e) client =
      client.attempts url n := by
  induction n generalizing e with
  | zero =>
    rw [List.replicate_succ, firstOk, serve_tryCatch, serve_fetchOnce]
    exact tryCatch_throw _
  | succ n ih =>
    rw [List.replicate_succ, firstOk, serve_tryCatch, serve_fetchOnce, Client.attempts]
    exact congrArg _ (funext fun e => ih e)

theorem serve_fetchBytes (client : Client σ) (url : Str) :
    (fetchBytes client.maxRetries url).serve client = client.fetchBytes url :=
  serve_attempts client url client.maxRetries .panic

theorem serve_fetchRelease (client : Client σ) (baseUrl suite : Str) :
    (fetchRelease client.maxRetries baseUrl suite).serve client = client.fetchRelease baseUrl suite := by
  rw [fetchRelease, List.map_cons, List.map_cons, List.map_nil, firstOk, serve_tryCatch,
    serve_fetchBytes, Client.fetchRelease]
  refine congrArg _ (funext fun e => ?_)
  by_cases he : e = notFound
  · rw [if_pos (decide_eq_true he), if_pos (show e = .err (.http 404) from he), firstOk, serve_tryCatch, serve_fetchBytes]
    refine Eq.trans (congrArg _ (funext fun e' => ?_)) (tryCatch_throw _)
    -- the error of `Release` is returned, whatever it is
    by_cases he' : e' = notFound
    · rw [if_pos (decide_eq_true he')]
      rfl
    · rw [if_neg (by simpa using he')]
      rfl
  · rw [if_neg (by simpa using he), if_neg (show ¬ e = .err (.http 404) from he)]
    rfl

end Server

/-! ### The requests for one URL -/

/-- The requests for a URL, none of which brings the body; `e` is the last error. -/
structure Failed (maxRetries : ℕ) (url : Str) (log : List (Sigma Answer)) (e : Failure) : Prop where
  length : log.length = maxRetries + 1
  request : ∀ x ∈ log, x.1 = ⟨url, none⟩
  error : ∀ x ∈ log, ∃ e, answered x.2 = .error e
  last : ∃ x ∈ log.getLast?, answered x.2 = .error e

/-- The requests for a URL, only the last of which brings the body. -/
structure Delivered (maxRetries : ℕ) (url : Str) (log : List (Sigma Answer)) (body : Bytes) : Prop where
  length : log.length ≤ maxRetries + 1
  request : ∀ x ∈ log, x.1 = ⟨url, none⟩
  error : ∀ x ∈ log.dropLast, ∃ e, answered x.2 = .error e
  last : ∃ x ∈ log.getLast?, answered x.2 = .ok body

variable {maxRetries n : ℕ} {url : Str} {urls : List Str} {l log : List (Sigma Answer)}
  {ls : List (List (Sigma Answer))} {e e₀ : Failure} {r : Except Failure Bytes}

theorem yields_fetchOnce :
    Yields (fetchOnce url).run l r ↔ ∃ answer, l = [⟨⟨url, none⟩, answer⟩] ∧ r = answered answer := by
  show Yields (.call ⟨url, none⟩ fun answer => .ret (answered answer)) l r ↔ _
  constructor
  · rintro (_ | h)
    obtain ⟨rfl, rfl⟩ := yields_ret.1 h
    exact ⟨_, rfl, rfl⟩
  · rintro ⟨answer, rfl, rfl⟩
    exact .cons (.nil _)

/-- Attempts in vain. -/
theorem tried_fetchOnce (h : Tried (fun _ => true) (List.replicate n (fetchOnce url)) ls e₀ e) :
    ls.flatten.length = n ∧ (∀ x ∈ ls.flatten, x.1 = ⟨url, none⟩ ∧ ∃ e, answered x.2 = .error e) ∧
      (n = 0 ∧ e = e₀ ∨ ∃ x ∈ ls.flatten.getLast?, answered x.2 = .error e) := by
  induction n generalizing ls e₀ with
  | zero =>
    cases h
    exact ⟨rfl, nofun, .inl ⟨rfl, rfl⟩⟩
  | succ n ih =>
    cases h with
    | cons hp _ h =>
      obtain ⟨answer, rfl, hanswer⟩ := yields_fetchOnce.1 hp
      obtain ⟨hlength, hall, hlast⟩ := ih h
      refine ⟨congrArg (· + 1) hlength, List.forall_mem_cons.2 ⟨⟨rfl, _, hanswer.symm⟩, hall⟩, .inr ?_⟩
      obtain ⟨rfl, rfl⟩ | ⟨x, hx, hxe⟩ := hlast
      · rw [List.length_eq_zero_iff] at hlength
        rw [List.flatten_cons, hlength]
        exact ⟨_, rfl, hanswer.symm⟩
      · refine ⟨x, ?_, hxe⟩
        rw [List.flatten_cons, List.getLast?_append, Option.mem_def.1 hx]
        rfl

/-- The requests of `fetch_bytes`. -/
theorem yields_fetchBytes (h : Yields (fetchBytes maxRetries url).run l r) :
    (∃ body, r = .ok body ∧ Delivered maxRetries url l body) ∨
      ∃ e, r = .error e ∧ Failed maxRetries url l e := by
  obtain ⟨before, p, after, ls, e, l', hps, htried, rfl, hp, hfinal⟩ | ⟨ls, e, htried, rfl, rfl⟩ :=
    yields_firstOk.1 h
  · obtain ⟨hlength, hbefore, hafter⟩ := List.replicate_eq_append_iff.1 hps
    rw [hbefore] at htried
    obtain ⟨hflat, hall, -⟩ := tried_fetchOnce htried
    obtain ⟨rfl, -⟩ := List.cons.inj (List.replicate_succ ▸ hafter)
    obtain ⟨answer, rfl, rfl⟩ := yields_fetchOnce.1 hp
    cases hanswer : answered answer with
    | error e' => exact absurd (hfinal e' hanswer) (by simp)
    | ok body =>
      refine .inl ⟨body, rfl, ?_, ?_, ?_, ?_⟩
      · rw [List.length_append, hflat, List.length_singleton]
        rw [List.length_cons] at hlength
        omega
      · refine List.forall_mem_append.2 ⟨fun x hx => (hall x hx).1, List.forall_mem_singleton.2 rfl⟩
      · rw [List.dropLast_concat]
        exact fun x hx => (hall x hx).2
      · rw [List.getLast?_concat]
        exact ⟨_, rfl, hanswer⟩
  · obtain ⟨hlength, hall, ⟨hzero, -⟩ | hlast⟩ := tried_fetchOnce htried
    · cases hzero
    · exact .inr ⟨e, rfl, hlength, fun x hx => (hall x hx).1, fun x hx => (hall x hx).2, hlast⟩

theorem yields_fetchBytes_error (h : Yields (fetchBytes maxRetries url).run l (.error e)) :
    Failed maxRetries url l e := by
  obtain ⟨body, hok, -⟩ | ⟨e', herror, hfailed⟩ := yields_fetchBytes h
  · cases hok
  · exact Except.error.inj herror ▸ hfailed

theorem yields_fetchDecompressed {x : Decoders}
    (h : Yields (fetchDecompressed x maxRetries url).run l r) :
    (∃ raw, Delivered maxRetries url l raw ∧ r = decompressByUrl x url raw) ∨
      ∃ e, r = .error e ∧ Failed maxRetries url l e := by
  rw [fetchDecompressed, ExceptT.run_bind, yields_bind] at h
  obtain ⟨l₁, l₂, result, rfl, hfetch, hrest⟩ := h
  obtain ⟨raw, rfl, hdelivered⟩ | ⟨e, rfl, hfailed⟩ := yields_fetchBytes hfetch
  · obtain ⟨rfl, rfl⟩ := yields_ret.1 hrest
    rw [List.append_nil]
    exact .inl ⟨raw, hdelivered, rfl⟩
  · obtain ⟨rfl, rfl⟩ := yields_ret.1 hrest
    rw [List.append_nil]
    exact .inr ⟨e, rfl, hfailed⟩

theorem decompressByUrl_ne_notFound {x : Decoders} {raw : Bytes} :
    decompressByUrl x url raw ≠ .error notFound := by
  have hdecoded : ∀ result, decoded result ≠ .error notFound := by
    intro result
    cases result <;> exact nofun
  unfold decompressByUrl
  dsimp only
  split_ifs
  · exact hdecoded _
  · exact hdecoded _
  · exact hdecoded _
  · exact nofun

section Specs

variable {σ : Type}

/-- A result on a server, and the log of its requests. -/
theorem outcome_yields {α : Type} (m : Http α) (client : Client σ) (s : σ) :
    ∃ log, Served client.send s log (outcome (m.serve client) s).2 ∧
      Yields m.run log (outcome (m.serve client) s).1 :=
  serve_yields client.send m.run s

/-- **The requests of `fetch_with_mirrors`.** The mirrors are asked in order. The result is the body of the
first one that delivers it within its attempts, and the ones after it get no request; all of the ones
before have failed with all of their attempts, as have all mirrors when there is no such one. -/
theorem fetchWithMirrors_spec (client : Client σ) (urls : List Str) (s : σ) :
    ∃ log, Served client.send s log
        (outcome ((fetchWithMirrors client.maxRetries urls).serve client) s).2 ∧
      ((∃ before url after ls l body, urls = before ++ url :: after ∧
          List.Forall₂ (fun url l => ∃ e, Failed client.maxRetries url l e) before ls ∧
          Delivered client.maxRetries url l body ∧ log = ls.flatten ++ l ∧
          (outcome ((fetchWithMirrors client.maxRetries urls).serve client) s).1 = .ok body) ∨
        ∃ ls, List.Forall₂ (fun url l => ∃ e, Failed client.maxRetries url l e) urls ls ∧
          log = ls.flatten ∧
          (outcome ((fetchWithMirrors client.maxRetries urls).serve client) s).1 =
            .error (.err .allMirrorsFailed)) := by
  obtain ⟨log, hserved, hlog⟩ := outcome_yields (fetchWithMirrors client.maxRetries urls) client s
  refine ⟨log, hserved, ?_⟩
  generalize (outcome ((fetchWithMirrors client.maxRetries urls).serve client) s).1 = r at hlog
  have hfailed : ∀ {urls ls}, List.Forall₂ (fun url l => ∃ e, true = true ∧
      Yields (fetchBytes client.maxRetries url).run l (.error e)) urls ls →
      List.Forall₂ (fun url l => ∃ e, Failed client.maxRetries url l e) urls ls := by
    refine List.Forall₂.imp fun url l h => ?_
    obtain ⟨e, -, h⟩ := h
    exact ⟨e, yields_fetchBytes_error h⟩
  cases r with
  | ok body =>
    obtain ⟨before, url, after, ls, l, hurls, hbefore, rfl, hurl, -⟩ | ⟨ls, e, -, -, herror, -⟩ :=
      yields_firstOk_map (yields_adapt_ok hlog)
    · obtain ⟨body', hok, hdelivered⟩ | ⟨e, herror, -⟩ := yields_fetchBytes hurl
      · obtain rfl := Except.ok.inj hok
        exact .inl ⟨before, url, after, ls, l, body, hurls, hfailed hbefore, hdelivered, rfl, rfl⟩
      · cases herror
    · cases herror
  | error e =>
    obtain ⟨e', rfl, hsearch⟩ := yields_adapt_error hlog
    obtain ⟨before, url, after, ls, l, hurls, hbefore, rfl, hurl, hfinal⟩ | ⟨ls, e, htried, rfl, -, -⟩ :=
      yields_firstOk_map hsearch
    · exact absurd (hfinal e' rfl) (by simp)
    · exact .inr ⟨ls, hfailed htried, rfl, rfl⟩

/-- **The requests of `fetch_index`.** It goes on from a format to the next only when all attempts for
it have failed, the last one with the status 404. The first format for which it is otherwise decides:
its body is decoded by its suffix, and neither an error of the decoder nor another error of the server
makes it go on. -/
theorem fetchIndex_spec (client : Client σ) (x : Decoders) (baseUrl suite component arch : Str) (s : σ) :
    ∃ log, Served client.send s log
        (outcome ((fetchIndex x client.maxRetries baseUrl suite component arch).serve client) s).2 ∧
      ((∃ before url after ls l, indexUrls baseUrl suite component arch = before ++ url :: after ∧
          List.Forall₂ (fun url l => Failed client.maxRetries url l notFound) before ls ∧
          log = ls.flatten ++ l ∧
          ((∃ raw, Delivered client.maxRetries url l raw ∧
              (outcome ((fetchIndex x client.maxRetries baseUrl suite component arch).serve client) s).1 =
                decompressByUrl x url raw) ∨
            ∃ e, e ≠ notFound ∧ Failed client.maxRetries url l e ∧
              (outcome ((fetchIndex x client.maxRetries baseUrl suite component arch).serve client) s).1 =
                .error e)) ∨
        ∃ ls, List.Forall₂ (fun url l => Failed client.maxRetries url l notFound)
            (indexUrls baseUrl suite component arch) ls ∧ log = ls.flatten ∧
          (outcome ((fetchIndex x client.maxRetries baseUrl suite component arch).serve client) s).1 =
            .error notFound) := by
  obtain ⟨log, hserved, hlog⟩ :=
    outcome_yields (fetchIndex x client.maxRetries baseUrl suite component arch) client s
  refine ⟨log, hserved, ?_⟩
  generalize (outcome ((fetchIndex x client.maxRetries baseUrl suite component arch).serve client) s).1 = r
    at hlog
  have hfailed : ∀ {urls ls}, List.Forall₂ (fun url l => ∃ e, decide (e = notFound) = true ∧
      Yields (fetchDecompressed x client.maxRetries url).run l (.error e)) urls ls →
      List.Forall₂ (fun url l => Failed client.maxRetries url l notFound) urls ls := by
    refine List.Forall₂.imp fun url l h => ?_
    obtain ⟨e, he, hyields⟩ := h
    obtain rfl := of_decide_eq_true he
    obtain ⟨raw, -, hdecoded⟩ | ⟨e, herror, hfailed⟩ := yields_fetchDecompressed hyields
    · exact absurd hdecoded.symm decompressByUrl_ne_notFound
    · exact Except.error.inj herror ▸ hfailed
  obtain ⟨before, url, after, ls, l, hurls, hbefore, rfl, hurl, hfinal⟩ | ⟨ls, e, htried, rfl, rfl, he⟩ :=
    yields_firstOk_map hlog
  · refine .inl ⟨before, url, after, ls, l, hurls, hfailed hbefore, rfl, ?_⟩
    obtain ⟨raw, hdelivered, hdecoded⟩ | ⟨e, rfl, hfail⟩ := yields_fetchDecompressed hurl
    · exact .inl ⟨raw, hdelivered, hdecoded⟩
    · exact .inr ⟨e, of_decide_eq_false (hfinal e rfl), hfail, rfl⟩
  · obtain rfl | he := he
    · exact .inr ⟨ls, hfailed htried, rfl, rfl⟩
    · exact .inr ⟨ls, hfailed htried, rfl, congrArg _ (of_decide_eq_true he)⟩

end Specs

end Transport
end DebToolkit
