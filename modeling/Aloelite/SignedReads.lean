import Aloelite.CanonicalRequests

/-! What the handlers of the S3 front read, and where from: the canonical request, but for the
arguments, which another reader takes from the query string, and for a `Host` that was not
signed. -/
namespace Aloelite

open Fallible UrlText S3

namespace S3

open SigV4

variable {H : Hashing} {B : Blueprint} {now : Int} {r r' : Request} {t u q q' name : Text}

/-! ### What the handlers read -/

/-- The names whose values the handlers read. -/
def valueNames : List Text :=
  ["prefix".toList, "delimiter".toList, "marker".toList, "max-keys".toList, "uploadId".toList,
    "partNumber".toList]

/-- The values of a name are one text, and no other bytes are signed as that text but read
as another one. -/
structure OneReading (queryString name : Text) : Prop where
  same : ∀ v v', (name, v) ∈ signedPairs queryString → (name, v') ∈ signedPairs queryString → v = v'
  plain : ∀ v, (name, v) ∈ signedPairs queryString → ∀ c ∈ v, c ≠ '+' ∧
    ¬ (0x80 ≤ c.toNat ∧ c.toNat < 0x100)

/-- An ASCII name without `+` and blanks. -/
def PlainName (name : Text) : Prop := ∀ c ∈ name, c.toNat < 0x80 ∧ c ≠ '+' ∧ c ≠ ' '

instance (name : Text) : Decidable (PlainName name) := inferInstanceAs (Decidable (∀ c ∈ name, _))

theorem mem_of_mem_splitOn {a c : Char} {l : Text} (h : l ∈ t.splitOn a) (hc : c ∈ l) : c ∈ t := by
  have hjoin : [a].intercalate (t.splitOn a) = t := List.intercalate_splitOn a
  rw [← hjoin]
  generalize t.splitOn a = ls at h
  induction ls with
  | nil => cases h
  | cons l' ls ih =>
    rcases List.mem_cons.mp h with rfl | h
    · cases ls with
      | nil => simpa using hc
      | cons l'' ls =>
        rw [List.intercalate_cons_cons]
        exact List.mem_append_left _ (List.mem_append_left _ hc)
    · cases ls with
      | nil => cases h
      | cons l'' ls =>
        rw [List.intercalate_cons_cons]
        exact List.mem_append_right _ (ih h)

theorem part_bytes (hq : ∀ c ∈ q, c.toNat < 0x100) {part : Text} (h : part ∈ queryParts q) :
    (∀ c ∈ (partition part).1, c.toNat < 0x100) ∧ ∀ c ∈ (partition part).2, c.toNat < 0x100 := by
  have hpart : ∀ c ∈ part, c.toNat < 0x100 :=
    fun c hc => hq c (mem_of_mem_splitOn (List.mem_of_mem_filter h) hc)
  constructor
  · intro c hc
    exact hpart c ((List.takeWhile_subset _) hc)
  · intro c hc
    exact hpart c ((List.dropWhile_subset _) (List.mem_of_mem_drop hc))

/-- Either reading finds the same names. -/
theorem formArg_isSome (hq : ∀ c ∈ q, c.toNat < 0x100) (hname : PlainName name) :
    (formArg q name).isSome ↔ ∃ v, (name, v) ∈ signedPairs q := by
  rw [formArg, Option.isSome_map, List.find?_isSome]
  constructor
  · intro h
    obtain ⟨p, hp, heq⟩ := h
    obtain ⟨part, hpart, rfl⟩ := List.mem_map.mp hp
    have hread : unquote (partition part).1 = name :=
      (formValue_eq_iff (part_bytes hq hpart).1 hname).mp (by simpa using heq)
    exact ⟨unquote (partition part).2, List.mem_map.mpr ⟨part, hpart, Prod.ext hread rfl⟩⟩
  · intro h
    obtain ⟨v, hv⟩ := h
    obtain ⟨part, hpart, heq⟩ := List.mem_map.mp hv
    have hread := (formValue_eq_iff (part_bytes hq hpart).1 hname).mpr (congrArg Prod.fst heq)
    exact ⟨_, List.mem_map_of_mem hpart, by simpa using hread⟩

theorem formArg_eq_some (hq : ∀ c ∈ q, c.toNat < 0x100) (hname : PlainName name) {v : Text}
    (h : formArg q name = some v) :
    ∃ part ∈ queryParts q, unquote (partition part).1 = name ∧ formValue (partition part).2 =
      v := by
  obtain ⟨p, hp, rfl⟩ := Option.map_eq_some_iff.mp h
  have hkey : p.1 = name := by simpa using List.find?_some hp
  obtain ⟨part, hpart, rfl⟩ := List.mem_map.mp (List.mem_of_find?_eq_some hp)
  exact ⟨part, hpart, (formValue_eq_iff (part_bytes hq hpart).1 hname).mp hkey, rfl⟩

/-- With one reading the handler's argument is the signed one. -/
theorem OneReading.formArg (h : OneReading q name) (hq : ∀ c ∈ q, c.toNat < 0x100)
    (hname : PlainName name) (v : Text) :
    S3.formArg q name = some v ↔ (name, v) ∈ signedPairs q := by
  have hread : ∀ v, S3.formArg q name = some v → (name, v) ∈ signedPairs q := by
    intro v hv
    obtain ⟨part, hpart, hn, rfl⟩ := formArg_eq_some hq hname hv
    have hmem : (name, unquote (partition part).2) ∈ signedPairs q :=
      List.mem_map.mpr ⟨part, hpart, Prod.ext hn rfl⟩
    rw [formValue_of_unquote (part_bytes hq hpart).2 (h.plain _ hmem)]
    exact hmem
  refine ⟨hread v, fun hv => ?_⟩
  obtain ⟨w, hw⟩ := Option.isSome_iff_exists.mp ((formArg_isSome hq hname).mpr ⟨v, hv⟩)
  rw [hw, h.same v w hv (hread w hw)]

theorem OneReading.perm (h : OneReading q name) (hperm : (signedPairs q).Perm (signedPairs q')) :
    OneReading q' name := by
  refine ⟨fun v v' hv hv' => ?_, fun v hv => ?_⟩
  · exact h.same v v' (hperm.mem_iff.mpr hv) (hperm.mem_iff.mpr hv')
  · exact h.plain v (hperm.mem_iff.mpr hv)

theorem valueNames_plain : ∀ name ∈ valueNames, PlainName name := by decide

/-- The arguments are those that are signed. -/
theorem Args.of_eq (hq : ∀ c ∈ q, c.toNat < 0x100) (hq' : ∀ c ∈ q', c.toNat < 0x100)
    (hperm : (signedPairs q).Perm (signedPairs q')) (h : ∀ name ∈ valueNames, OneReading q name) :
    Args.of q' = Args.of q := by
  have hvalue : ∀ name ∈ valueNames, S3.formArg q' name = S3.formArg q name := by
    intro name hname
    ext v
    rw [((h name hname).perm hperm).formArg hq' (valueNames_plain name hname),
      (h name hname).formArg hq (valueNames_plain name hname), hperm.mem_iff]
  have hflag : ∀ name, PlainName name → (S3.formArg q' name).isSome =
      (S3.formArg q name).isSome := by
    intro name hname
    rw [Bool.eq_iff_iff, formArg_isSome hq' hname, formArg_isSome hq hname]
    exact exists_congr (fun v => hperm.mem_iff.symm)
  rw [Args.of, Args.of, hvalue _ (by decide), hvalue _ (by decide), hvalue _ (by decide),
    hvalue _ (by decide),
    hvalue _ (by decide), hvalue _ (by decide), hflag "uploads".toList (by decide +kernel),
    hflag "delete".toList (by decide +kernel)]

/-! ### Requests under one signature -/

/-- The names the request signs. -/
def Request.signedNames (r : Request) : List Text :=
  match (getHeader r.headers "Authorization".toList).filter (· ≠ []) with
  | none => []
  | some auth =>
    match parseAuthorization auth with
    | .ok a => a.signed
    | .error _ => []

def Request.SignsHost (r : Request) : Prop :=
  ∃ name ∈ r.signedNames, lower name = lower "Host".toList

/-- No host names a bucket. -/
def Blueprint.PathStyle (B : Blueprint) : Prop :=
  ∀ host : Text, (∀ c ∈ host, isSpace c = false) →
    virtualBucket B.virtualHostSuffix (host.takeWhile (· ≠ ':')) = none

/-- The payload is hashed. -/
def Request.Hashed (r : Request) : Prop := declared r.headers ≠ UNSIGNED_PAYLOAD

/-- The request that carries the same signature. -/
structure SameStamp (r r' : Request) : Prop where
  authorization : getHeader r'.headers "Authorization".toList =
    getHeader r.headers "Authorization".toList
  date : getHeader r'.headers "X-Amz-Date".toList = getHeader r.headers "X-Amz-Date".toList

/-- What makes the signature of a request bind what it does. -/
structure Bound (B : Blueprint) (r : Request) : Prop where
  host : B.PathStyle ∨ r.SignsHost
  args : ∀ name ∈ valueNames, OneReading r.queryString name

theorem authenticate_ok {creds : Credentials} : authenticate H B now r = .ok creds ↔
    ∃ k, verify H r.method.text r.path r.queryString r.headers (some (hexdigest (H.sha256 r.data)))
      B.credentials now =
      .ok (k, creds) := by
  rw [authenticate]
  split
  next k creds' h =>
    rw [h]
    constructor
    · intro heq
      obtain rfl := Except.ok.inj heq
      exact ⟨k, rfl⟩
    · intro heq
      obtain ⟨k', heq⟩ := heq
      rw [(Prod.mk.inj (Except.ok.inj heq)).2]
  next e h =>
    rw [h]
    constructor
    · intro heq
      cases heq
    · intro heq
      obtain ⟨k', heq⟩ := heq
      cases heq

theorem Method.text_injective : Function.Injective Method.text := by
  intro m m' h
  cases m <;> cases m' <;> first | rfl | exact absurd h (by decide)

theorem Method.newline_not_mem (m : Method) : '\n' ∉ m.text := by
  cases m <;> decide

/-- Two requests that pass under one signature differ in what is not signed at most. -/
theorem one_canonical (hsha : Function.Injective H.sha256)
    (hhmac : ∀ k, Function.Injective (H.hmac k)) {now' : Int} {creds creds' : Credentials}
    (hr : authenticate H B now r = .ok creds) (hr' : authenticate H B now' r' = .ok creds')
    (hreal : r.Hashed) (hreal' : r'.Hashed) (hstamp : SameStamp r r') :
    r.method = r'.method ∧ r.path = r'.path ∧
      (signedPairs r.queryString).Perm (signedPairs r'.queryString) ∧ r.data = r'.data ∧
      ∀ name ∈ r.signedNames, ∃ v v', getHeader r.headers name = some v ∧
        getHeader r'.headers name = some v' ∧
        squeeze v = squeeze v' := by
  obtain ⟨k, hv⟩ := authenticate_ok.mp hr
  obtain ⟨k', hv'⟩ := authenticate_ok.mp hr'
  obtain ⟨auth, a, amzDate, c, hauth, ha, hdate, -, -, hbody, hcreds, hc, hsig, -⟩ :=
    verify_eq_ok.mp hv
  obtain ⟨auth', a', amzDate', c', hauth', ha', hdate', -, -, hbody', hcreds', hc', hsig', -⟩ :=
    verify_eq_ok.mp hv'
  rw [hstamp.authorization, hauth] at hauth'
  obtain rfl := Option.some.inj hauth'
  obtain rfl := Except.ok.inj (ha.symm.trans ha')
  rw [hstamp.date, hdate] at hdate'
  obtain rfl := Option.some.inj hdate'
  obtain rfl := Option.some.inj (hcreds.symm.trans hcreds')
  obtain rfl := signatureOf_injective hsha hhmac (hsig.trans hsig'.symm)
  obtain ⟨hmethod, huri, hquery, hdeclared, hnames⟩ :=
    canonicalRequest_injective r.method.newline_not_mem r'.method.newline_not_mem hc hc'
  have hrooted : ∀ r : Request, r.path ≠ [] := by
    intro r h
    have hhead := r.path_rooted
    rw [h] at hhead
    cases hhead
  have hhash := hbody.resolve_left hreal
  have hhash' := hbody'.resolve_left hreal'
  refine ⟨Method.text_injective hmethod, canonicalUri_injective (hrooted r) (hrooted r') huri,
    canonicalQuery_eq_iff.mp hquery, ?_, ?_⟩
  · exact hsha (hexdigest_injective (hhash.trans (hdeclared.trans hhash'.symm)))
  · have hsigned : r.signedNames = a.signed := by
      rw [Request.signedNames, hauth]
      simp only [ha]
    rw [hsigned]
    exact hnames

theorem getHeader_congr {hs : List (Text × Text)} {name name' : Text}
    (h : lower name = lower name') :
    getHeader hs name = getHeader hs name' := by
  rw [getHeader, getHeader, h]

/-- A bound request is the only one under its signature, as far as the handlers see. -/
theorem Bound.acted (hsha : Function.Injective H.sha256)
    (hhmac : ∀ k, Function.Injective (H.hmac k)) {now' : Int} {creds creds' : Credentials}
    (hbound : Bound B r) (hr : authenticate H B now r = .ok creds)
    (hr' : authenticate H B now' r' = .ok creds') (hreal : r.Hashed) (hreal' : r'.Hashed)
    (hstamp : SameStamp r r') :
    r'.acted B = r.acted B := by
  obtain ⟨hmethod, hpath, hperm, hdata, hnames⟩ :=
    one_canonical hsha hhmac hr hr' hreal hreal' hstamp
  have hargs : Args.of r'.queryString = Args.of r.queryString :=
    Args.of_eq r.query_bytes r'.query_bytes hperm hbound.args
  have htarget : ∀ bucket rest, splitTarget B.virtualHostSuffix (r'.host B) bucket rest =
      splitTarget B.virtualHostSuffix (r.host B) bucket rest := by
    intro bucket rest
    rcases hbound.host with hoff | ⟨name, hname, hlower⟩
    · have hplain : ∀ r : Request, ∀ c ∈ r.host B, isSpace c = false := by
        intro r c hc
        rw [Request.host] at hc
        cases hh : getHeader r.headers "Host".toList with
        | none =>
          rw [hh] at hc
          exact B.server_plain c hc
        | some host =>
          rw [hh] at hc
          exact r.host_plain host hh c hc
      rw [splitTarget, splitTarget, hoff _ (hplain r), hoff _ (hplain r')]
    · obtain ⟨v, v', hv, hv', hsqueeze⟩ := hnames name hname
      rw [getHeader_congr hlower] at hv hv'
      rw [squeeze_plain (r.host_plain v hv), squeeze_plain (r'.host_plain v' hv')] at hsqueeze
      rw [Request.host, Request.host, hv, hv', hsqueeze]
  rw [Request.acted, Request.acted, htarget, hpath, hmethod, hargs, hdata]

end S3

end Aloelite
