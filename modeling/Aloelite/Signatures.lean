import Aloelite.SignedReads

/-! What a signature binds. Two requests under one signature have one canonical request; a request
that was not signed passes only for what the handlers read elsewhere. -/
namespace Aloelite

open Fallible UrlText S3

namespace S3

open SigV4

variable {H : Hashing} {B : Blueprint} {now : Int} {r r' : Request} {t u q q' name : Text}

/-! ### Forged requests -/

theorem splitTarget_ok (B : Blueprint) (host path : Text) :
    ∃ target, splitTarget B.virtualHostSuffix host (B.route path).1 (B.route path).2 =
      .ok target := by
  rw [splitTarget]
  split
  · exact ⟨_, rfl⟩
  · rw [if_neg (B.route_bucket path)]
    exact ⟨_, rfl⟩

/-- A query with the same canonical form passes. -/
theorem authenticate_query {creds : Credentials} (hbytes : ∀ c ∈ q, c.toNat < 0x100)
    (h : canonicalQuery q = canonicalQuery r.queryString)
    (hr : authenticate H B now r = .ok creds) :
    authenticate H B now { r with queryString := q, query_bytes := hbytes } = .ok creds := by
  obtain ⟨k, hv⟩ := authenticate_ok.mp hr
  apply authenticate_ok.mpr
  refine ⟨k, ?_⟩
  have hsame : verify H r.method.text r.path q r.headers (some (hexdigest (H.sha256 r.data)))
      B.credentials now =
      verify H r.method.text r.path r.queryString r.headers (some (hexdigest (H.sha256 r.data)))
        B.credentials now := by
    simp only [verify, canonicalRequest, h]
  exact hsame.trans hv

/-- One part of a query goes to its front, with other bytes that are signed alike. -/
theorem forgedQuery (hq : ∀ c ∈ q, c.toNat < 0x100) (hname : PlainName name) {part raw : Text}
    (hpart : part ∈ queryParts q)
    (hn : unquote (partition part).1 = name) (hraw : unquote raw = unquote (partition part).2)
    (hbytes : ∀ c ∈ raw, c.toNat < 0x100) (hamp : '&' ∉ raw) :
    ∃ q', (∀ c ∈ q', c.toNat < 0x100) ∧ canonicalQuery q' = canonicalQuery q ∧ formArg q' name =
      some (formValue raw) := by
  obtain ⟨l₁, l₂, hsplit⟩ := List.append_of_mem hpart
  have hplain : ∀ l ∈ queryParts q, '&' ∉ l ∧ l ≠ [] := by
    intro l hl
    obtain ⟨hl, hne⟩ := List.mem_filter.mp hl
    refine ⟨fun hmem => ?_, by simpa using hne⟩
    rw [List.splitOn_eq_splitOnP] at hl
    have hsep := not_of_mem_splitOnP hl _ hmem
    simp at hsep
  have heq : '=' ∉ (partition part).1 := by
    intro hmem
    have hsep := List.mem_takeWhile_imp hmem
    simp at hsep
  -- the part, with its own name but the other spelling of its value
  let new := (partition part).1 ++ '=' :: raw
  have hread : partition new = ((partition part).1, raw) := partition_join heq raw
  have hnew : '&' ∉ new ∧ new ≠ [] := by
    refine ⟨fun hmem => ?_, by simp [new]⟩
    rcases List.mem_append.mp hmem with hmem | hmem
    · exact (hplain part hpart).1 (List.takeWhile_subset _ hmem)
    rcases List.mem_cons.mp hmem with hmem | hmem
    · exact absurd hmem (by decide)
    · exact hamp hmem
  have hrest : ∀ l ∈ l₁ ++ l₂, l ∈ queryParts q := by
    intro l hl
    rw [hsplit]
    rcases List.mem_append.mp hl with hl | hl
    · exact List.mem_append_left _ hl
    · exact List.mem_append_right _ (List.mem_cons_of_mem _ hl)
  have hall : ∀ l ∈ new :: (l₁ ++ l₂), '&' ∉ l ∧ l ≠ [] := by
    intro l hl
    rcases List.mem_cons.mp hl with rfl | hl
    · exact hnew
    · exact hplain l (hrest l hl)
  have hparts : queryParts (['&'].intercalate (new :: (l₁ ++ l₂))) = new :: (l₁ ++ l₂) := by
    rw [queryParts, List.splitOn_intercalate '&' (fun l hl => (hall l hl).1) (List.cons_ne_nil _ _)]
    apply List.filter_eq_self.mpr
    intro l hl
    exact decide_eq_true (hall l hl).2
  refine ⟨['&'].intercalate (new :: (l₁ ++ l₂)), ?_, ?_, ?_⟩
  · intro c hc
    rcases mem_intercalate hc with rfl | ⟨l, hl, hc⟩
    · decide
    rcases List.mem_cons.mp hl with rfl | hl
    · rcases List.mem_append.mp hc with hc | hc
      · exact (part_bytes hq hpart).1 c hc
      rcases List.mem_cons.mp hc with rfl | hc
      · decide
      · exact hbytes c hc
    · exact hq c (mem_of_mem_splitOn (List.mem_of_mem_filter (hrest l hl)) hc)
  · have hsigned : signedPair new = signedPair part := by
      rw [signedPair, signedPair, hread, hraw]
    rw [canonicalQuery_eq_iff, signedPairs, signedPairs, hparts, hsplit, List.map_cons,
      List.map_append, List.map_append,
      List.map_cons, hsigned]
    exact List.perm_middle.symm
  · rw [formArg, hparts, List.map_cons, List.find?_cons_of_pos, Option.map_some, hread]
    rw [hread]
    exact decide_eq_true ((formValue_eq_iff (part_bytes hq hpart).1 hname).mpr hn)

theorem Args.of_value (h : Args.of q = Args.of q') :
    ∀ name ∈ valueNames, S3.formArg q name = S3.formArg q' name := by
  intro name hname
  simp only [valueNames, List.mem_cons, List.not_mem_nil, or_false] at hname
  rcases hname with rfl | rfl | rfl | rfl | rfl | rfl
  · exact congrArg Args.pfx h
  · exact congrArg Args.delimiter h
  · exact congrArg Args.marker h
  · exact congrArg Args.maxKeys h
  · exact congrArg Args.uploadId h
  · exact congrArg Args.partNumber h

/-- The other ways to send what is signed show whether it has one reading. -/
theorem oneReading_of_forged (hq : ∀ c ∈ q, c.toNat < 0x100) (hname : PlainName name)
    (h : ∀ q', (∀ c ∈ q', c.toNat < 0x100) → canonicalQuery q' = canonicalQuery q →
      formArg q' name = formArg q name) :
    OneReading q name := by
  -- every form of every value is what the handler reads
  have hread : ∀ v, (name, v) ∈ signedPairs q → ∀ raw, unquote raw = v →
      (∀ c ∈ raw, c.toNat < 0x100) → '&' ∉ raw →
      formArg q name = some (formValue raw) := by
    intro v hv raw hraw hbytes hamp
    obtain ⟨part, hpart, heq⟩ := List.mem_map.mp hv
    obtain ⟨q', hq', hcanonical, hform⟩ :=
      forgedQuery hq hname hpart (congrArg Prod.fst heq) (hraw.trans (congrArg Prod.snd heq).symm)
        hbytes hamp
    rw [← h q' hq' hcanonical, hform]
  have hamp : ∀ t, '&' ∉ quote [] t := by
    intro t hmem
    rcases (mem_quote hmem).2 with h | h | h
    · exact absurd h (by decide)
    · cases h
    · exact absurd h (by decide)
  have hbytes : ∀ t, ∀ c ∈ quote [] t, c.toNat < 0x100 := by
    intro t c hc
    have := quote_ascii t c hc
    omega
  have hquoted : ∀ v, (name, v) ∈ signedPairs q → formArg q name = some v := by
    intro v hv
    rw [hread v hv (quote [] v) (unquote_quote v) (hbytes v) (hamp v), formValue_quote]
  refine ⟨fun v v' hv hv' => ?_, fun v hv c hc => ?_⟩
  · exact Option.some.inj ((hquoted v hv).symm.trans (hquoted v' hv'))
  · obtain ⟨u, w, rfl⟩ := List.append_of_mem hc
    have hform : ∀ raw : Text, unquote raw = u ++ c :: w → (∀ c ∈ raw, c.toNat < 0x100) →
        '&' ∉ raw →
        formValue raw = u ++ c :: w := by
      intro raw hraw hbytes hamp
      exact Option.some.inj ((hread _ hv raw hraw hbytes hamp).symm.trans (hquoted _ hv))
    -- the character as it is, between quoted text
    have hmixed : c ≠ '&' → c.toNat < 0x100 →
        (∀ c' ∈ quote [] u ++ c :: quote [] w, c'.toNat < 0x100) ∧
        '&' ∉ quote [] u ++ c :: quote [] w := by
      intro hne hlt
      constructor
      · intro c' hc'
        rcases List.mem_append.mp hc' with hc' | hc'
        · exact hbytes u c' hc'
        rcases List.mem_cons.mp hc' with rfl | hc'
        · exact hlt
        · exact hbytes w c' hc'
      · intro hmem
        rcases List.mem_append.mp hmem with hmem | hmem
        · exact hamp u hmem
        rcases List.mem_cons.mp hmem with hmem | hmem
        · exact hne hmem.symm
        · exact hamp w hmem
    constructor
    · rintro rfl
      obtain ⟨hb, ha⟩ := hmixed (by decide) (by decide)
      have hblank := hform _ (unquote_plus u w) hb ha
      rw [formValue_plus] at hblank
      exact absurd (List.cons.inj (List.append_cancel_left hblank)).1 (by decide)
    · intro hhigh
      have hne : c ≠ '&' := by
        rintro rfl
        exact absurd hhigh.1 (by decide)
      obtain ⟨hb, ha⟩ := hmixed hne hhigh.2
      have hlone := hform _ (unquote_raw hhigh.1.not_gt u w) hb ha
      rw [formValue_raw hhigh.1.not_gt hhigh.2] at hlone
      have hsame : replacement = c := (List.cons.inj (List.append_cancel_left hlone)).1
      rw [← hsame] at hhigh
      exact absurd hhigh.2 (by decide)

/-- The headers with another `Host`. -/
def withHost (hs : List (Text × Text)) (host : Text) : List (Text × Text) :=
  ("Host".toList, host) :: hs.filter (fun h => lower h.1 ≠ lower "Host".toList)

theorem getHeader_withHost_of_ne {hs : List (Text × Text)} {host : Text}
    (h : lower name ≠ lower "Host".toList) :
    getHeader (withHost hs host) name = getHeader hs name := by
  rw [getHeader, withHost, List.find?_cons_of_neg, List.find?_filter, getHeader]
  · congr 2
    funext p
    by_cases hp : lower p.1 = lower name
    · have hkeep : lower p.1 ≠ lower "Host".toList := fun heq => h (hp.symm.trans heq)
      rw [decide_eq_true hkeep]
      simp only [true_and, Bool.decide_eq_true]
    · rw [decide_eq_false hp]
      simp only [Bool.false_eq_true, and_false, decide_false]
  · simpa using Ne.symm h

theorem getHeader_withHost_self {hs : List (Text × Text)} {host : Text} :
    getHeader (withHost hs host) "Host".toList = some host := by
  rw [getHeader, withHost, List.find?_cons_of_pos (by simp)]
  rfl

theorem canonicalHeaders_congr {hs hs' : List (Text × Text)} {signed : List Text}
    (h : ∀ name ∈ signed, getHeader hs' name = getHeader hs name) :
    canonicalHeaders H hs' signed = canonicalHeaders H hs signed := by
  induction signed with
  | nil => rfl
  | cons name signed ih =>
    rw [canonicalHeaders, canonicalHeaders, h name List.mem_cons_self,
      ih (fun n hn => h n (List.mem_cons_of_mem _ hn))]

/-- The request sent to another host. -/
def Request.toHost (r : Request) (host : Text) (hplain : ∀ c ∈ host, isSpace c = false) : Request :=
  { r with
    headers := withHost r.headers host
    host_plain := by
      intro h hh
      rw [getHeader_withHost_self] at hh
      obtain rfl := Option.some.inj hh
      exact hplain }

theorem authenticate_toHost {creds : Credentials} {host : Text}
    (hplain : ∀ c ∈ host, isSpace c = false) (hsigns : ¬ r.SignsHost)
    (hr : authenticate H B now r = .ok creds) :
    authenticate H B now (r.toHost host hplain) = .ok creds := by
  obtain ⟨k, hv⟩ := authenticate_ok.mp hr
  obtain ⟨auth, a, amzDate, c, hauth, ha, hdate, hskew, hstream, hbody, hcreds, hc, hsig, hk⟩ :=
    verify_eq_ok.mp hv
  have hkeep : ∀ name, lower name ≠ lower "Host".toList →
      getHeader (r.toHost host hplain).headers name = getHeader r.headers name :=
        fun name => getHeader_withHost_of_ne
  have hdeclared : declared (r.toHost host hplain).headers = declared r.headers := by
    rw [declared, declared, hkeep _ (by decide)]
  have hsigned : r.signedNames = a.signed := by
    rw [Request.signedNames, hauth]
    simp only [ha]
  apply authenticate_ok.mpr
  refine ⟨k, verify_eq_ok.mpr ⟨auth, a, amzDate, c, ?_, ha, ?_, hskew, ?_, ?_,
    hcreds, ?_, hsig, hk⟩⟩
  · rw [hkeep _ (by decide)]
    exact hauth
  · rw [hkeep _ (by decide)]
    exact hdate
  · rw [hdeclared]
    exact hstream
  · rw [hdeclared]
    exact hbody
  · rw [hdeclared]
    have hlines : canonicalHeaders H (r.toHost host hplain).headers a.signed =
        canonicalHeaders H r.headers a.signed := by
      apply canonicalHeaders_congr
      intro name hname
      apply hkeep
      intro hlower
      exact hsigns ⟨name, hsigned ▸ hname, hlower⟩
    rw [canonicalRequest, hlines]
    exact hc

theorem toHost_stamp {host : Text} (hplain : ∀ c ∈ host, isSpace c = false) :
    SameStamp r (r.toHost host hplain) :=
  ⟨getHeader_withHost_of_ne (by decide), getHeader_withHost_of_ne (by decide)⟩

theorem virtualBucket_join {suffix x : Text} (hne : suffix ≠ []) :
    virtualBucket (some suffix) (x ++ '.' :: suffix.dropWhile (· = '.')) = some x := by
  have hlen : (x ++ '.' ::
      suffix.dropWhile (· = '.')).length - ((suffix.dropWhile (· = '.')).length + 1) =
      x.length := by
    rw [List.length_append, List.length_cons]
    omega
  simp only [virtualBucket]
  rw [if_pos ⟨hne, List.suffix_append _ _⟩, hlen, List.take_left]

/-- Where hosts name buckets, they name any. -/
theorem Blueprint.exists_host (h : ¬ B.PathStyle) (x : Text)
    (hx : ∀ c ∈ x, isSpace c = false ∧ c ≠ ':') :
    ∃ host : Text, (∀ c ∈ host, isSpace c = false) ∧
      virtualBucket B.virtualHostSuffix (host.takeWhile (· ≠ ':')) = some x := by
  rw [Blueprint.PathStyle] at h
  push Not at h
  obtain ⟨host, hplain, hsome⟩ := h
  cases hs : B.virtualHostSuffix with
  | none =>
    rw [hs] at hsome
    exact absurd rfl hsome
  | some suffix =>
    rw [hs] at hsome
    simp only [virtualBucket] at hsome
    split at hsome
    next hmatch =>
      have hmem : ∀ c ∈ '.' :: suffix.dropWhile (· = '.'), isSpace c = false ∧ c ≠ ':' := by
        intro c hc
        have htaken := hmatch.2.subset hc
        exact ⟨hplain c (List.takeWhile_subset _ htaken),
          by simpa using List.mem_takeWhile_imp htaken⟩
      have hall : ∀ c ∈ x ++ '.' :: suffix.dropWhile (· = '.'), isSpace c = false ∧ c ≠ ':' := by
        intro c hc
        exact (List.mem_append.mp hc).elim (hx c) (hmem c)
      refine ⟨x ++ '.' :: suffix.dropWhile (· = '.'), fun c hc => (hall c hc).1, ?_⟩
      rw [List.takeWhile_eq_self_iff.mpr (fun c hc => decide_eq_true (hall c hc).2)]
      exact virtualBucket_join hmatch.1
    next => exact absurd rfl hsome

/-- A signature binds what the handler acts on just for the requests that sign their
`Host`, where hosts name buckets, and whose arguments have one reading. -/
theorem signature_binds (hsha : Function.Injective H.sha256)
    (hhmac : ∀ k, Function.Injective (H.hmac k)) {creds : Credentials}
    (hr : authenticate H B now r = .ok creds) (hreal : r.Hashed) :
    (∀ (r' : Request) (now' : Int) (creds' : Credentials), r'.Hashed → SameStamp r r' →
      authenticate H B now' r' = .ok creds' →
      r'.acted B = r.acted B) ↔ Bound B r := by
  constructor
  -- a host that is not signed can be exchanged, and so can a query with a second reading
  · intro h
    refine ⟨?_, fun name hname => ?_⟩
    · by_contra hhost
      rw [not_or] at hhost
      obtain ⟨hstyle, hsigns⟩ := hhost
      have hbucket : ∀ x : Text, (∀ c ∈ x, isSpace c = false ∧ c ≠ ':') →
          ∃ key, (r.acted B).map Acted.bucket = .ok x ∧
          (r.acted B).map Acted.key = .ok key := by
        intro x hx
        obtain ⟨host, hplain, hx⟩ := B.exists_host hstyle x hx
        have hdeclared : (r.toHost host hplain).Hashed := by
          rw [Request.Hashed, declared, Request.toHost, getHeader_withHost_of_ne (by decide)]
          exact hreal
        rw [← h (r.toHost host hplain) now creds hdeclared (toHost_stamp hplain)
          (authenticate_toHost hplain hsigns hr)]
        rw [Request.acted, Request.host, Request.toHost, getHeader_withHost_self,
          Option.getD_some, splitTarget, hx]
        exact ⟨_, rfl, rfl⟩
      obtain ⟨-, ha, -⟩ := hbucket ['a'] (by decide)
      obtain ⟨-, hb, -⟩ := hbucket ['b'] (by decide)
      rw [ha] at hb
      exact absurd (Except.ok.inj hb) (by decide)
    · apply oneReading_of_forged r.query_bytes (valueNames_plain name hname)
      intro q' hq' hcanonical
      have hsame := h { r with queryString := q', query_bytes := hq' } now creds hreal ⟨rfl, rfl⟩
        (authenticate_query hq' hcanonical hr)
      obtain ⟨target, htarget⟩ := splitTarget_ok B (r.host B) r.path
      rw [Request.acted, Request.acted, htarget] at hsame
      have hforged : splitTarget B.virtualHostSuffix
          (Request.host B { r with queryString := q', query_bytes := hq' })
          (B.route r.path).1 (B.route r.path).2 = .ok target := htarget
      rw [hforged] at hsame
      exact Args.of_value (congrArg Acted.args (Except.ok.inj hsame)) name hname
  · intro hbound r' now' creds' hreal' hstamp hr'
    exact hbound.acted hsha hhmac hr hr' hreal hreal' hstamp

/-! ### Two requests -/

/-- Digests that show the bytes, and a clock that knows one time. -/
def plainHashing : Hashing where
  sha256 bs := 0 :: bs
  hmac _ bs := bs
  strptime t := if t = "20260101T000000Z".toList then some ⟨"20260101".toList, 0⟩ else none
  repr t := String.ofList t

def oneBucket : Blueprint where
  credentials k := if k = "AK".toList then some ⟨"s".toList, none⟩ else none
  server := "localhost".toList
  route _ := ("b".toList, [])
  server_plain := by decide
  route_bucket _ := by decide

/-- The authorization of a listing with a query. -/
def listingAuthorization (queryString : Text) : Text :=
  let canonical := ['\n'].intercalate
    ["GET".toList, "/b".toList, canonicalQuery queryString, "host:localhost\n".toList,
      "host".toList, "00".toList]
  "AWS4-HMAC-SHA256 Credential=AK/20260101/r/s3/aws4_request, ".toList ++
    "SignedHeaders=host, Signature=".toList ++
    hexdigest (utf8 (stringToSign plainHashing "20260101T000000Z".toList
      "20260101/r/s3/aws4_request".toList canonical))

/-- The headers of a listing signed for a query. -/
def listingHeaders (signedFor : Text) : List (Text × Text) :=
  [("Host".toList, "localhost".toList), ("X-Amz-Date".toList, "20260101T000000Z".toList),
    ("X-Amz-Content-Sha256".toList, "00".toList),
    ("Authorization".toList, listingAuthorization signedFor)]

/-- A listing sent as it was signed, `prefix=a`. -/
def sentAsSigned : Request where
  method := .get
  path := "/b".toList
  queryString := "prefix=a".toList
  headers := listingHeaders "prefix=a".toList
  host_plain := by decide +kernel

/-- A listing of the keys that start with `a+b`. -/
def signedPlus : Request where
  method := .get
  path := "/b".toList
  queryString := "prefix=a%2Bb".toList
  headers := listingHeaders "prefix=a%2Bb".toList
  host_plain := by decide +kernel

/-- The same with the escape undone on the way. -/
def sentPlus : Request where
  method := .get
  path := "/b".toList
  queryString := "prefix=a+b".toList
  headers := listingHeaders "prefix=a%2Bb".toList
  host_plain := by decide +kernel

theorem plainHashing_injective :
    Function.Injective plainHashing.sha256 ∧ ∀ k, Function.Injective (plainHashing.hmac k) :=
  ⟨fun _ _ h => (List.cons.inj h).2, fun _ _ _ h => h⟩

/-- The same listing with a header more, which no signature covers. -/
def sentTraced : Request where
  method := .get
  path := "/b".toList
  queryString := "prefix=a".toList
  headers := listingHeaders "prefix=a".toList ++ [("X-Request-Id".toList, "7".toList)]
  host_plain := by decide +kernel

theorem signature_binds_sentAsSigned :
    sentTraced.acted oneBucket = sentAsSigned.acted oneBucket := by
  have hpass : authenticate plainHashing oneBucket 0 sentAsSigned = .ok ⟨"s".toList, none⟩ := by
    decide +kernel
  have htraced : authenticate plainHashing oneBucket 0 sentTraced = .ok ⟨"s".toList, none⟩ := by
    decide +kernel
  have hreal : sentAsSigned.Hashed := by
    rw [Request.Hashed]
    decide +kernel
  have hreal' : sentTraced.Hashed := by
    rw [Request.Hashed]
    decide +kernel
  have hpairs : signedPairs sentAsSigned.queryString = [("prefix".toList, "a".toList)] := by
    decide +kernel
  have hvalue : ∀ name v, (name, v) ∈ signedPairs sentAsSigned.queryString → v = "a".toList := by
    intro name v hv
    rw [hpairs] at hv
    exact congrArg Prod.snd (List.mem_singleton.mp hv)
  have hbound : Bound oneBucket sentAsSigned := by
    refine ⟨Or.inl (fun _ _ => rfl), fun name _ => ⟨fun v v' hv hv' => ?_, fun v hv => ?_⟩⟩
    · rw [hvalue name v hv, hvalue name v' hv']
    · rw [hvalue name v hv]
      decide
  have hbinds := (signature_binds plainHashing_injective.1 plainHashing_injective.2 hpass hreal).mpr
      hbound
  exact hbinds sentTraced 0 _ hreal' ⟨by decide +kernel, by decide +kernel⟩ htraced

/-- Both pass under one signature, and list different keys. -/
theorem signature_plus_forged :
    (Function.Injective plainHashing.sha256 ∧ ∀ k, Function.Injective (plainHashing.hmac k)) ∧
      signedPlus.Hashed ∧ sentPlus.Hashed ∧ SameStamp signedPlus sentPlus ∧
      authenticate plainHashing oneBucket 0 signedPlus = .ok ⟨"s".toList, none⟩ ∧
      authenticate plainHashing oneBucket 0 sentPlus = .ok ⟨"s".toList, none⟩ ∧
      (signedPlus.acted oneBucket).map (fun a => a.args.pfx) = .ok (some "a+b".toList) ∧
      (sentPlus.acted oneBucket).map (fun a => a.args.pfx) = .ok (some "a b".toList) := by
  refine ⟨plainHashing_injective, ?_, ?_, ⟨rfl, rfl⟩, ?_, ?_, ?_, ?_⟩
  · rw [Request.Hashed]
    decide +kernel
  · rw [Request.Hashed]
    decide +kernel
  · decide +kernel
  · decide +kernel
  · decide +kernel
  · decide +kernel

end S3

end Aloelite
