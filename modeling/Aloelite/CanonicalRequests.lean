import Aloelite.SigV4

/-! What a canonical request determines: two requests with one canonical request agree on
everything that went into it. -/
namespace Aloelite

open Fallible UrlText S3

namespace SigV4

variable {H : Hashing} {hs hs' : List (Text × Text)} {t u name : Text} {signed : List Text}

/-! ### Texts with separators -/

theorem separator_injective {α : Type*} {a : α} {x y z w : List α} (hx : a ∉ x) (hy : a ∉ y)
    (h : x ++ a :: z = y ++ a :: w) :
    x = y ∧ z = w := by
  induction x generalizing y with
  | nil =>
    cases y with
    | nil => exact ⟨rfl, (List.cons.inj h).2⟩
    | cons b y => exact absurd ((List.cons.inj h).1 ▸ List.mem_cons_self) hy
  | cons b x ih =>
    cases y with
    | nil => exact absurd ((List.cons.inj h).1 ▸ List.mem_cons_self) hx
    | cons b' y =>
      obtain ⟨rfl, hrest⟩ := List.cons.inj h
      obtain ⟨rfl, rfl⟩ :=
        ih (fun hm => hx (List.mem_cons_of_mem _ hm)) (fun hm => hy (List.mem_cons_of_mem _ hm))
          hrest
      exact ⟨rfl, rfl⟩

theorem intercalate_injective {a : Char} {ls ls' : List Text} (hls : ∀ l ∈ ls, a ∉ l ∧ l ≠ [])
    (hls' : ∀ l ∈ ls', a ∉ l ∧ l ≠ []) (h : [a].intercalate ls = [a].intercalate ls') :
    ls = ls' := by
  have hempty : ∀ ls : List Text, (∀ l ∈ ls, a ∉ l ∧ l ≠ []) → [a].intercalate ls = [] →
      ls = [] := by
    intro ls hls hnil
    cases ls with
    | nil => rfl
    | cons l ls =>
      exfalso
      apply (hls l List.mem_cons_self).2
      cases ls with
      | nil => simpa using hnil
      | cons l' ls =>
        rw [List.intercalate_cons_cons] at hnil
        exact (List.append_eq_nil_iff.mp (List.append_eq_nil_iff.mp hnil).1).1
  by_cases hne : ls = []
  · subst hne
    exact (hempty ls' hls' h.symm).symm
  by_cases hne' : ls' = []
  · subst hne'
    exact hempty ls hls h
  rw [← List.splitOn_intercalate a (fun l hl => (hls l hl).1) hne, h,
    List.splitOn_intercalate a (fun l hl => (hls' l hl).1) hne']

theorem hexDigitLower_injective {m n : ℕ} (hm : m < 16) (hn : n < 16)
    (h : hexDigitLower m = hexDigitLower n) : m = n := by
  have hall : ∀ m n : Fin 16, hexDigitLower m = hexDigitLower n → m = n := by decide
  exact congrArg Fin.val (hall ⟨m, hm⟩ ⟨n, hn⟩ h)

theorem hexdigest_injective : Function.Injective hexdigest := by
  intro bs bs' h
  induction bs generalizing bs' with
  | nil =>
    cases bs' with
    | nil => rfl
    | cons b' bs' => cases h
  | cons b bs ih =>
    cases bs' with
    | nil => cases h
    | cons b' bs' =>
      have hb : b.toNat < 256 := b.toNat_lt
      have hb' : b'.toNat < 256 := b'.toNat_lt
      rw [hexdigest, hexdigest, List.flatMap_cons, List.flatMap_cons] at h
      obtain ⟨hhigh, h⟩ := List.cons.inj h
      obtain ⟨hlow, hrest⟩ := List.cons.inj h
      have hhigh := hexDigitLower_injective (by omega) (by omega) hhigh
      have hlow := hexDigitLower_injective (by omega) (by omega) hlow
      have hsame : b = b' := by
        apply UInt8.toNat.inj
        omega
      rw [hsame, ih hrest]

/-! ### The canonical request -/

theorem mem_uriEncode {c : Char} {slash : Bool} (h : c ∈ uriEncode t slash) :
    Unreserved c ∨ (c = '/' ∧ slash) ∨ c = '%' := by
  rcases (mem_quote h).2 with h | h | h
  · exact Or.inl h
  · cases slash with
    | false => cases h
    | true => exact Or.inr (Or.inl ⟨List.mem_singleton.mp h, rfl⟩)
  · exact Or.inr (Or.inr h)

theorem uriEncode_injective {slash : Bool} : Function.Injective (fun t => uriEncode t slash) := by
  cases slash with
  | false => exact quote_injective List.not_mem_nil
  | true => exact quote_injective (by decide)

/-- No separator of the canonical request is left in what is encoded. -/
theorem not_mem_uriEncode {slash : Bool} : '\n' ∉ uriEncode t slash ∧ '&' ∉ uriEncode t slash ∧
    '=' ∉ uriEncode t slash := by
  have hnot : ∀ c : Char, ¬ Unreserved c → c ≠ '/' → c ≠ '%' → c ∉ uriEncode t slash := by
    intro c hu hs hp hmem
    rcases mem_uriEncode hmem with h | h | h
    · exact hu h
    · exact hs h.1
    · exact hp h
  refine ⟨?_, ?_, ?_⟩
  · exact hnot _ (by decide) (by decide) (by decide)
  · exact hnot _ (by decide) (by decide) (by decide)
  · exact hnot _ (by decide) (by decide) (by decide)

theorem newline_not_mem_canonicalUri : '\n' ∉ canonicalUri t := by
  rw [canonicalUri]
  split
  · decide
  · exact not_mem_uriEncode.1

theorem canonicalUri_injective (ht : t ≠ []) (hu : u ≠ []) (h : canonicalUri t = canonicalUri u) :
    t = u := by
  rw [canonicalUri, canonicalUri, if_neg ht, if_neg hu] at h
  exact uriEncode_injective h

/-- The names and values the signature covers. -/
def signedPair (part : Text) : Text × Text :=
  (unquote (partition part).1, unquote (partition part).2)

def signedPairs (queryString : Text) : List (Text × Text) := (queryParts queryString).map signedPair

theorem mem_intercalate {c a : Char} {ls : List Text} (h : c ∈ [a].intercalate ls) :
    c = a ∨ ∃ l ∈ ls, c ∈ l := by
  induction ls with
  | nil => cases h
  | cons l ls ih =>
    cases ls with
    | nil =>
      rw [List.intercalate_singleton] at h
      exact Or.inr ⟨l, List.mem_cons_self, h⟩
    | cons l' ls =>
      rw [List.intercalate_cons_cons, List.mem_append, List.mem_append, List.mem_singleton] at h
      rcases h with (h | h) | h
      · exact Or.inr ⟨l, List.mem_cons_self, h⟩
      · exact Or.inl h
      · exact (ih h).imp id (fun ⟨l, hl, hc⟩ => ⟨l, List.mem_cons_of_mem _ hl, hc⟩)

theorem newline_not_mem_canonicalQuery : '\n' ∉ canonicalQuery t := by
  intro h
  rcases mem_intercalate h with h | ⟨l, hl, hc⟩
  · exact absurd h (by decide)
  obtain ⟨p, hp, rfl⟩ := List.mem_map.mp hl
  rw [List.mem_insertionSort] at hp
  obtain ⟨part, -, rfl⟩ := List.mem_map.mp hp
  rcases List.mem_append.mp hc with hc | hc
  · exact not_mem_uriEncode.1 hc
  rcases List.mem_cons.mp hc with hc | hc
  · exact absurd hc (by decide)
  · exact not_mem_uriEncode.1 hc

theorem partition_join (ht : '=' ∉ t) (u : Text) : partition (t ++ '=' :: u) = (t, u) := by
  have hne : ∀ c ∈ t, decide (c ≠ '=') = true := by
    intro c hc
    apply decide_eq_true
    rintro rfl
    exact ht hc
  rw [partition, List.takeWhile_append_of_pos hne, List.dropWhile_append_of_pos hne]
  simp

/-- The canonical query fixes the signed names and values, but for their order. -/
theorem canonicalQuery_eq_iff : canonicalQuery t = canonicalQuery u ↔
    (signedPairs t).Perm (signedPairs u) := by
  have hcanonical : ∀ q, (queryParts q).map canonicalPair =
      (signedPairs q).map (Prod.map (fun t => uriEncode t false) (fun t => uriEncode t false)) := by
    intro q
    rw [signedPairs, List.map_map]
    rfl
  have hinj : Function.Injective
      (Prod.map (fun t => uriEncode t false) (fun t => uriEncode t false)) :=
    uriEncode_injective.prodMap uriEncode_injective
  rw [← List.map_perm_map_iff hinj, ← hcanonical, ← hcanonical]
  constructor
  · intro h
    have hplain : ∀ q,
        ∀ l ∈ (((queryParts q).map canonicalPair).insertionSort (fun p q => toLex p ≤ toLex q)).map
        (fun p => p.1 ++ '=' :: p.2), '&' ∉ l ∧ l ≠ [] := by
      intro q l hl
      obtain ⟨p, hp, rfl⟩ := List.mem_map.mp hl
      rw [List.mem_insertionSort] at hp
      obtain ⟨part, -, rfl⟩ := List.mem_map.mp hp
      refine ⟨?_, by simp⟩
      intro hc
      rcases List.mem_append.mp hc with hc | hc
      · exact not_mem_uriEncode.2.1 hc
      rcases List.mem_cons.mp hc with hc | hc
      · exact absurd hc (by decide)
      · exact not_mem_uriEncode.2.1 hc
    have hlines := intercalate_injective (hplain t) (hplain u) h
    -- the pairs are read off the lines
    have hread : ∀ q,
        ((((queryParts q).map canonicalPair).insertionSort (fun p q => toLex p ≤ toLex q)).map
        (fun p => p.1 ++ '=' :: p.2)).map partition =
          ((queryParts q).map canonicalPair).insertionSort (fun p q => toLex p ≤ toLex q) := by
      intro q
      rw [List.map_map]
      conv_rhs => rw [← List.map_id (List.insertionSort _ _)]
      apply List.map_congr_left
      intro p hp
      rw [List.mem_insertionSort] at hp
      obtain ⟨part, -, rfl⟩ := List.mem_map.mp hp
      exact partition_join not_mem_uriEncode.2.2 _
    have hsorted := congrArg (List.map partition) hlines
    rw [hread, hread] at hsorted
    have ht := List.perm_insertionSort (fun p q => toLex p ≤ toLex q)
        ((queryParts t).map canonicalPair)
    rw [hsorted] at ht
    exact ht.symm.trans (List.perm_insertionSort _ _)
  · intro h
    have : Std.Total (fun p q : Text × Text => toLex p ≤ toLex q) := ⟨fun p q => le_total _ _⟩
    have : IsTrans (Text × Text) (fun p q => toLex p ≤ toLex q) := ⟨fun _ _ _ => le_trans⟩
    have hsorted : ((queryParts t).map canonicalPair).insertionSort (fun p q => toLex p ≤ toLex q) =
        ((queryParts u).map canonicalPair).insertionSort (fun p q => toLex p ≤ toLex q) := by
      refine List.Perm.eq_of_pairwise ?_
        (List.pairwise_insertionSort (fun p q => toLex p ≤ toLex q) _)
        (List.pairwise_insertionSort (fun p q => toLex p ≤ toLex q) _) ?_
      · intro p q _ _ hpq hqp
        exact toLex.injective (le_antisymm hpq hqp)
      · exact ((List.perm_insertionSort _ _).trans h).trans (List.perm_insertionSort _ _).symm
    rw [canonicalQuery, canonicalQuery, hsorted]

/-- A piece has none of the characters that were split at. -/
theorem not_of_mem_splitOnP {p : Char → Bool} {l : Text} (hl : l ∈ t.splitOnP p) :
    ∀ c ∈ l, p c = false := by
  induction t generalizing l with
  | nil =>
    obtain rfl := List.mem_singleton.mp hl
    intro c hc
    cases hc
  | cons a t ih =>
    rw [List.splitOnP_cons_eq_if_modifyHead] at hl
    intro c hc
    split at hl
    next =>
      rcases List.mem_cons.mp hl with rfl | hl
      · cases hc
      · exact ih hl c hc
    next hp =>
      cases hs : t.splitOnP p with
      | nil => exact absurd hs (List.splitOnP_ne_nil p t)
      | cons l₀ ls =>
        rw [hs, List.modifyHead_cons] at hl
        rcases List.mem_cons.mp hl with rfl | hl
        · rcases List.mem_cons.mp hc with rfl | hc
          · simpa using hp
          · exact ih (hs ▸ List.mem_cons_self) c hc
        · exact ih (hs ▸ List.mem_cons_of_mem _ hl) c hc

theorem newline_not_mem_squeeze : '\n' ∉ squeeze t := by
  intro h
  rcases mem_intercalate h with h | ⟨l, hl, hc⟩
  · exact absurd h (by decide)
  have hspace := not_of_mem_splitOnP (List.mem_of_mem_filter hl) _ hc
  revert hspace
  decide

/-- A value without blanks is its own canonical form. -/
theorem squeeze_plain (h : ∀ c ∈ t, isSpace c = false) : squeeze t = t := by
  rw [squeeze, List.splitOnP_eq_singleton h]
  by_cases ht : t = []
  · subst ht
    rfl
  · rw [List.filter_cons_of_pos (by simpa using ht), List.filter_nil, List.intercalate_singleton]

/-- What the lines of the signed headers fix. -/
theorem canonicalHeaders_injective {x y z w : Text} (ht : canonicalHeaders H hs signed = .ok x)
    (hu : canonicalHeaders H hs' signed = .ok y) (h : x ++ z = y ++ w) :
    z = w ∧ ∀ name ∈ signed, ∃ v v', getHeader hs name = some v ∧ getHeader hs' name = some v' ∧
      squeeze v = squeeze v' := by
  induction signed generalizing x y with
  | nil =>
    obtain rfl := Except.ok.inj ht
    obtain rfl := Except.ok.inj hu
    exact ⟨h, fun _ hn => by cases hn⟩
  | cons name signed ih =>
    simp only [canonicalHeaders, bind_eq_ok, orRaise_eq_ok, pure_eq_ok] at ht hu
    obtain ⟨v, hv, x', hx', rfl⟩ := ht
    obtain ⟨v', hv', y', hy', rfl⟩ := hu
    simp only [List.append_assoc, List.cons_append] at h
    obtain ⟨-, hvalue⟩ := List.cons.inj (List.append_cancel_left h)
    obtain ⟨hsqueeze, hlines⟩ :=
      separator_injective newline_not_mem_squeeze newline_not_mem_squeeze hvalue
    obtain ⟨hrest, hnames⟩ := ih hx' hy' hlines
    refine ⟨hrest, fun n hn => ?_⟩
    rcases List.mem_cons.mp hn with rfl | hn
    · exact ⟨v, v', hv, hv', hsqueeze⟩
    · exact hnames n hn

/-- What the canonical request fixes. -/
theorem canonicalRequest_injective {m m' p p' q q' d d' c : Text} (hm : '\n' ∉ m) (hm' : '\n' ∉ m')
    (h : canonicalRequest H m p q hs signed d = .ok c)
    (h' : canonicalRequest H m' p' q' hs' signed d' = .ok c) :
    m = m' ∧ canonicalUri p = canonicalUri p' ∧ canonicalQuery q = canonicalQuery q' ∧ d = d' ∧
      ∀ name ∈ signed, ∃ v v', getHeader hs name = some v ∧ getHeader hs' name = some v' ∧
        squeeze v = squeeze v' := by
  simp only [canonicalRequest, bind_eq_ok, pure_eq_ok] at h h'
  obtain ⟨x, hx, hc⟩ := h
  obtain ⟨y, hy, hc'⟩ := h'
  have hsame := hc.trans hc'.symm
  simp only [List.intercalate_cons_cons, List.intercalate_singleton, List.append_assoc,
    List.singleton_append] at hsame
  obtain ⟨hmethod, hafterMethod⟩ := separator_injective hm hm' hsame
  obtain ⟨huri, hafterUri⟩ :=
    separator_injective newline_not_mem_canonicalUri newline_not_mem_canonicalUri hafterMethod
  obtain ⟨hquery, hafterQuery⟩ :=
    separator_injective newline_not_mem_canonicalQuery newline_not_mem_canonicalQuery hafterUri
  obtain ⟨htail, hnames⟩ := canonicalHeaders_injective hx hy hafterQuery
  have hd : d = d' := by simpa using htail
  exact ⟨hmethod, huri, hquery, hd, hnames⟩

/-! ### Verification -/

/-- The declared hash of the payload. -/
def declared (hs : List (Text × Text)) : Text :=
  ((getHeader hs "X-Amz-Content-Sha256".toList).filter (· ≠ [])).getD UNSIGNED_PAYLOAD

/-- The signature an authorization asks for on a canonical request. -/
def signatureOf (H : Hashing) (a : Authorization) (secret amzDate canonical : Text) : Text :=
  hexdigest (H.hmac (signingKey H secret a.date a.region a.service)
    (utf8 (stringToSign H amzDate
      (['/'].intercalate [a.date, a.region, a.service, "aws4_request".toList]) canonical)))

variable {m p q bodyHash : Text} {lookup : Text → Option Credentials} {now : Int}

/-- What a request that verifies has passed. -/
theorem verify_eq_ok {k : Text} {creds : Credentials} :
    verify H m p q hs (some bodyHash) lookup now = .ok (k, creds) ↔
      ∃ auth a amzDate canonical,
        (getHeader hs "Authorization".toList).filter (· ≠ []) = some auth ∧
        parseAuthorization auth = .ok a ∧
          (getHeader hs "X-Amz-Date".toList).filter (· ≠ []) = some amzDate ∧
        checkSkew H amzDate a.date now = .ok () ∧ declared hs ≠ STREAMING_PAYLOAD ∧
        (declared hs = UNSIGNED_PAYLOAD ∨ bodyHash = declared hs) ∧
          lookup a.accessKey = some creds ∧
        canonicalRequest H m p q hs a.signed (declared hs) = .ok canonical ∧
        signatureOf H a creds.secret amzDate canonical = a.signature ∧ k = a.accessKey := by
  simp only [verify, bind_eq_ok, orRaise_eq_ok, refuse_eq_ok, decide_eq_false_iff_not,
    pure_eq_ok, Prod.mk.injEq]
  constructor
  · intro h
    obtain ⟨auth, hauth, a, ha, amzDate, hdate, u, hskew, u₁, hstream, u₂, hbody, creds', hcreds,
      canonical, hcanonical, u₃,
      hsig, rfl, rfl⟩ := h
    refine ⟨auth, a, amzDate, canonical, hauth, ha, hdate, hskew, hstream, ?_, hcreds, hcanonical,
      not_not.mp hsig, rfl⟩
    rcases not_and_or.mp hbody with h | h
    · exact Or.inl (not_not.mp h)
    · apply Or.inr
      simpa [declared] using h
  · intro h
    obtain ⟨auth, a, amzDate, canonical, hauth, ha, hdate, hskew, hstream, hbody, hcreds,
      hcanonical, hsig, rfl⟩ := h
    refine ⟨auth, hauth, a, ha, amzDate, hdate, (), hskew, (), hstream, (), ?_, creds, hcreds,
      canonical, hcanonical, (),
      not_not.mpr hsig, rfl, rfl⟩
    rcases hbody with h | h
    · exact fun hn => hn.1 h
    · intro hn
      rw [Option.any_some, h] at hn
      exact absurd hn.2 (by simp [declared])

/-- One signature, one canonical request. -/
theorem signatureOf_injective (hsha : Function.Injective H.sha256)
    (hhmac : ∀ k, Function.Injective (H.hmac k)) {a : Authorization} {secret amzDate c c' : Text}
    (h : signatureOf H a secret amzDate c = signatureOf H a secret amzDate c') :
    c = c' := by
  have htext := utf8_injective (hhmac _ (hexdigest_injective h))
  simp only [stringToSign, List.intercalate_cons_cons, List.intercalate_singleton,
    List.append_assoc] at htext
  have hdigest : hexdigest (H.sha256 (utf8 c)) = hexdigest (H.sha256 (utf8 c')) := by
    simpa using htext
  exact utf8_injective (hsha (hexdigest_injective hdigest))

end SigV4

end Aloelite
