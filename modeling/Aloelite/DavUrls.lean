import Aloelite.DavPaths
import Aloelite.Manager
import Aloelite.Library.UrlText

/-! URLs of `dav.py`: the hrefs it emits, the request URLs it is reached by, and the
`Destination` header of a request. -/
namespace Aloelite

open UrlText

namespace DavUrls

/-! ### `urlsplit` -/

/-- The authority and the path of a URL. -/
structure SplitUrl where
  netloc : Text
  path : Text
  deriving DecidableEq, Repr

/-- `scheme_chars` -/
def schemeChar (c : Char) : Bool := c.isAlphanum || c = '+' || c = '-' || c = '.'

/-- What stands after a scheme, if the text has one. -/
def afterScheme (url : Text) : Text :=
  let scheme := url.takeWhile (· ≠ ':')
  if ':' ∈ url ∧ scheme.head?.any Char.isAlpha ∧ scheme.all schemeChar then
    url.drop (scheme.length + 1) else url

/-- `urlsplit`, as far as it is read here. -/
def urlsplit (url : Text) : SplitUrl :=
  let url := (url.dropWhile (fun c => decide (c.toNat ≤ 0x20))).filter (fun c => c ≠ '\t' ∧
    c ≠ '\r' ∧ c ≠ '\n')
  let url := afterScheme url
  let ended := fun c : Char => decide (c ≠ '/' ∧ c ≠ '?' ∧ c ≠ '#')
  let pathOf := fun t : Text => t.takeWhile (fun c => c ≠ '#' ∧ c ≠ '?')
  if ['/', '/'] <+: url then ⟨(url.drop 2).takeWhile ended, pathOf ((url.drop 2).dropWhile ended)⟩
  else ⟨[], pathOf url⟩

/-! ### `_href` and `_destination` -/

/-- `url_prefix`, which `create_app` leaves as it is. -/
def urlPrefix : Text := "/dav".toList

/-- The start of every href of a volume. -/
def volumeUrl (vid : Text) : Text := urlPrefix ++ '/' :: quote [] vid

/-- `_href` -/
def href (vid path : Text) (isDir : Bool) : Text :=
  let body := ['/'].intercalate (((path.splitOn '/').filter (· ≠ [])).map (quote []))
  let href := if body = [] then volumeUrl vid else volumeUrl vid ++ '/' :: body
  if isDir ∧ ¬ ['/'] <:+ href then href ++ ['/'] else href

/-- `_destination`; `host` is `request.host`. -/
def destination (host : Text) (rec : VolumeStore.VolumeRecord) (header : Option Text) :
    Except DavFault DavPath :=
  match header with
  | none => .error { status := 400, message := "Destination header is required" }
  | some raw =>
    if raw = [] then .error { status := 400, message := "Destination header is required" }
    else
      let parsed := urlsplit raw
      if parsed.netloc ≠ [] ∧ parsed.netloc ≠ host then
        .error { status := 502, message := "destination is on another server" }
      else
        let start := volumeUrl rec.id.toList
        if ¬ start <+: parsed.path then
          .error { status := 502, message := "destination is outside this volume" }
        -- the prefix is cut off before percent-decoding
        else .ok (normPath (unquote (parsed.path.drop start.length)))

/-! ### Request URLs -/

/-- What the rules `/dav/<vid>` and `/dav/<vid>/<path:rest>` make of the path of a request,
which is decoded once before it is matched. -/
structure Routes (route : Text → Option (Text × Text)) : Prop where
  reads : ∀ {raw vid rest}, route raw = some (vid, rest) → vid ≠ [] ∧ '/' ∉ vid ∧
    ∃ tail, unquote raw = urlPrefix ++ '/' :: (vid ++ tail) ∧
    (tail = [] ∧ rest = [] ∨ tail = '/' :: rest ∨ tail = '/' :: (rest ++ ['/']))
  finds : ∀ {raw vid : Text} {segs : List Text} {slash : Text}, vid ≠ [] → '/' ∉ vid →
    (∀ seg ∈ segs, PlainSegment seg) →
    slash = [] ∨ slash = ['/'] → unquote raw = urlPrefix ++ '/' ::
    (vid ++ (DavPath.body segs ++ slash)) →
    ∃ rest, route raw = some (vid, rest)

/-- A URL leads to a path of a volume, as `_dispatch` reads it. -/
def Leads (m : Manager) (route : Text → Option (Text × Text)) (url vid rest : Text)
    (rec : VolumeStore.VolumeRecord) : Prop :=
  route (urlsplit url).path = some (vid, rest) ∧ m.requireVolume (String.ofList vid) = .ok rec

/-! ### Paths with dots -/

/-- Segments that at some point climb out of the ones they started from. -/
def ClimbsFrom (segs : List Text) : List Text → Prop
  | [] => False
  | part :: parts => part = ['.', '.'] ∧ segs = [] ∨ ClimbsFrom (normStep segs part) parts

/-- A path that climbs above its root, where `_norm_path` stops it. -/
def Climbs (t : Text) : Prop := ClimbsFrom [] (t.splitOn '/')

variable {segs parts : List Text} {seg t u : Text}

theorem normStep_cons (hne : ¬ (seg = ['.', '.'] ∧ segs = [])) (x : Text) :
    normStep (x :: segs) seg = x :: normStep segs seg := by
  unfold normStep
  split
  · rfl
  · split
    next hup =>
      have hsegs : segs ≠ [] := fun h => hne ⟨hup, h⟩
      rw [List.dropLast_cons_of_ne_nil hsegs]
    next => rfl

/-- A first segment is there in the end unless the others climb above it. -/
theorem foldl_normStep_cons (x : Text) :
    (¬ ClimbsFrom segs parts → parts.foldl normStep (x :: segs) = x :: parts.foldl normStep segs) ∧
    (ClimbsFrom segs parts → parts.foldl normStep (x :: segs) = parts.foldl normStep segs) := by
  induction parts generalizing segs with
  | nil => exact ⟨fun _ => rfl, fun h => h.elim⟩
  | cons part parts ih =>
    rw [List.foldl_cons, List.foldl_cons]
    by_cases hout : part = ['.', '.'] ∧ segs = []
    · obtain ⟨rfl, rfl⟩ := hout
      exact ⟨fun h => absurd (Or.inl ⟨rfl, rfl⟩) h, fun _ => rfl⟩
    · rw [normStep_cons hout]
      constructor
      · intro h
        exact ih.1 (fun hc => h (Or.inr hc))
      · rintro (h | h)
        · exact absurd h hout
        · exact ih.2 h

theorem climbsFrom_concat_nil : ClimbsFrom segs (parts ++ [[]]) ↔ ClimbsFrom segs parts := by
  induction parts generalizing segs with
  | nil => simp [ClimbsFrom]
  | cons part parts ih =>
    rw [List.cons_append, ClimbsFrom, ClimbsFrom, ih]

/-! ### Paths and their URLs -/

theorem segs_normPath_cons (t : Text) : (normPath ('/' :: t)).segs = (normPath t).segs := by
  change (('/' :: t).splitOn '/').foldl normStep [] = (t.splitOn '/').foldl normStep []
  rw [splitOn_slash_cons]
  rfl

theorem splitOn_concat_slash (t : Text) : (t ++ ['/']).splitOn '/' = t.splitOn '/' ++ [[]] :=
  List.splitOn_append_cons_self t []

theorem segs_normPath_concat (t : Text) : (normPath (t ++ ['/'])).segs = (normPath t).segs := by
  change ((t ++ ['/']).splitOn '/').foldl normStep [] = (t.splitOn '/').foldl normStep []
  rw [splitOn_concat_slash, List.foldl_append]
  rfl

theorem climbs_concat (t : Text) : Climbs (t ++ ['/']) ↔ Climbs t := by
  rw [Climbs, splitOn_concat_slash, climbsFrom_concat_nil]
  rfl

/-- A first segment before a path, and the path without it. -/
theorem normPath_seg_iff (hslash : '/' ∉ seg) : normPath (seg ++ '/' :: t) = normPath t ↔
    seg = [] ∨ seg = ['.'] ∨ seg = ['.', '.'] ∨ Climbs t := by
  have hsplit : (seg ++ '/' :: t).splitOn '/' = seg :: t.splitOn '/' := by
    rw [List.splitOn_append_cons_self, List.splitOn_eq_singleton hslash, List.singleton_append]
  have hiff : normPath (seg ++ '/' :: t) = normPath t ↔
      (t.splitOn '/').foldl normStep (normStep [] seg) = (t.splitOn '/').foldl normStep [] := by
    constructor
    · intro h
      have hsegs : ((seg ++ '/' :: t).splitOn '/').foldl normStep [] =
          (t.splitOn '/').foldl normStep [] := congrArg DavPath.segs h
      rw [hsplit] at hsegs
      exact hsegs
    · intro h
      apply DavPath.ext_segs
      change ((seg ++ '/' :: t).splitOn '/').foldl normStep [] = (t.splitOn '/').foldl normStep []
      rw [hsplit]
      exact h
  rw [hiff]
  by_cases hnone : seg = [] ∨ seg = ['.']
  · rw [normStep, if_pos hnone]
    exact ⟨fun _ => hnone.imp_right Or.inl, fun _ => rfl⟩
  by_cases hup : seg = ['.', '.']
  · rw [normStep, if_neg hnone, if_pos hup]
    exact ⟨fun _ => Or.inr (Or.inr (Or.inl hup)), fun _ => rfl⟩
  rw [normStep, if_neg hnone, if_neg hup, List.nil_append]
  obtain ⟨hstays, hgoes⟩ := @foldl_normStep_cons [] (t.splitOn '/') seg
  by_cases hclimbs : Climbs t
  · exact ⟨fun _ => Or.inr (Or.inr (Or.inr hclimbs)), fun _ => hgoes hclimbs⟩
  · rw [hstays hclimbs]
    constructor
    · intro h
      have hlen := congrArg List.length h
      rw [List.length_cons] at hlen
      omega
    · rintro (h | h | h | h)
      · exact absurd (Or.inl h) hnone
      · exact absurd (Or.inr h) hnone
      · exact absurd h hup
      · exact absurd h hclimbs

theorem normPath_body (p : DavPath) : normPath (DavPath.body p.segs) = p := by
  by_cases hsegs : p.segs = []
  · have hroot : p = DavPath.root := DavPath.ext_segs hsegs
    subst hroot
    rfl
  · rw [← DavPath.text_of_ne hsegs, normPath_text]

theorem normPath_body_slash (p : DavPath) (hslash : u = [] ∨ u = ['/']) :
    normPath (DavPath.body p.segs ++ u) = p := by
  rcases hslash with rfl | rfl
  · rw [List.append_nil, normPath_body]
  · rw [DavPath.ext_segs (segs_normPath_concat _), normPath_body]

theorem spells_slash : Spells ['/'] ['/'] := by
  have h : Spells (quote ['/'] ['/']) ['/'] := spells_quote (by decide) _
  have hplain : quote ['/'] ['/'] = ['/'] := by decide
  rw [hplain] at h
  exact h

theorem spells_body (segs : List Text) :
    Spells (DavPath.body (segs.map (quote []))) (DavPath.body segs) := by
  induction segs with
  | nil => exact @spells_quote [] List.not_mem_nil []
  | cons seg segs ih =>
    rw [List.map_cons, DavPath.body_cons, DavPath.body_cons]
    exact spells_slash.append ((spells_quote List.not_mem_nil seg).append ih)

theorem spells_volumeUrl (vid : Text) : Spells (volumeUrl vid) (urlPrefix ++ '/' :: vid) := by
  have h : Spells (quote ['/'] (urlPrefix ++ ['/'])) (urlPrefix ++ ['/']) :=
    spells_quote (by decide) _
  have hplain : quote ['/'] (urlPrefix ++ ['/']) = urlPrefix ++ ['/'] := by decide
  rw [hplain] at h
  have hall := h.append (spells_quote List.not_mem_nil vid)
  rw [List.append_assoc, List.append_assoc] at hall
  exact hall

/-- An href is the start of its volume, a slash and a quoted text for each segment, and
perhaps a slash. -/
theorem href_eq (vid : Text) (p : DavPath) (isDir : Bool) : ∃ slash, (slash = [] ∨ slash = ['/']) ∧
    href vid p.text isDir = volumeUrl vid ++ (DavPath.body (p.segs.map (quote [])) ++ slash) := by
  have hsegs : (p.text.splitOn '/').filter (· ≠ []) = p.segs := by
    rw [DavPath.text, splitOn_slash_cons, List.filter_cons_of_neg (by simp)]
    by_cases hnil : p.segs = []
    · rw [hnil]
      rfl
    · rw [List.splitOn_intercalate '/' (fun seg h => (p.plain seg h).2.1) hnil]
      exact List.filter_eq_self.mpr (fun seg h => decide_eq_true (p.plain seg h).1)
  have hbody : (if ['/'].intercalate (p.segs.map (quote [])) = [] then volumeUrl vid
      else volumeUrl vid ++ '/' :: ['/'].intercalate (p.segs.map (quote []))) =
      volumeUrl vid ++ DavPath.body (p.segs.map (quote [])) := by
    cases hp : p.segs with
    | nil => exact (List.append_nil _).symm
    | cons seg segs =>
      have hseg : quote [] seg ≠ [] := by
        intro h
        have hnil : quote [] seg = quote [] [] := h
        exact (p.plain seg (hp ▸ List.mem_cons_self)).1 (quote_injective List.not_mem_nil hnil)
      rw [List.map_cons, DavPath.slash_intercalate, if_neg]
      intro h
      cases hmap : segs.map (quote []) with
      | nil =>
        rw [hmap] at h
        exact hseg (by simpa using h)
      | cons next rest =>
        rw [hmap] at h
        have hlen := congrArg List.length h
        simp [List.intercalate] at hlen
  unfold href
  simp only [hsegs, hbody]
  split
  · exact ⟨['/'], Or.inr rfl, List.append_assoc _ _ _⟩
  · exact ⟨[], Or.inl rfl, by rw [List.append_nil]⟩

/-- What an href is made of. -/
def HrefChar (c : Char) : Prop := c = '/' ∨ c = '%' ∨ Unreserved c

theorem HrefChar.plain {c : Char} (h : HrefChar c) : 0x20 < c.toNat ∧ c ≠ '#' ∧ c ≠ '?' := by
  have hnot : ∀ d : Char, ¬ HrefChar d → c ≠ d := by
    rintro d hd rfl
    exact hd h
  refine ⟨?_, hnot '#' (by unfold HrefChar; decide), hnot '?' (by unfold HrefChar; decide)⟩
  have hlow : ∀ d : Char, 0x20 < d.toNat → d ≤ c → 0x20 < c.toNat := by
    intro d hd hle
    have hle' : d.toNat ≤ c.toNat := hle
    omega
  rcases h with rfl | rfl | h | h | h | h
  · decide
  · decide
  · exact hlow 'A' (by decide) h.1
  · exact hlow 'a' (by decide) h.1
  · exact hlow '0' (by decide) h.1
  · have hall : ∀ d ∈ ['-', '_', '.', '~'], 0x20 < d.toNat := by decide
    exact hall c h

theorem hrefChar_quote {c : Char} (h : c ∈ quote [] t) : HrefChar c := by
  rcases (mem_quote h).2 with h | h | h
  · exact Or.inr (Or.inr h)
  · exact absurd h List.not_mem_nil
  · exact Or.inr (Or.inl h)

theorem hrefChar_href (vid : Text) (p : DavPath) (isDir : Bool) :
    ∀ c ∈ href vid p.text isDir, HrefChar c := by
  obtain ⟨slash, hslash, hhref⟩ := href_eq vid p isDir
  rw [hhref]
  intro c hc
  rcases List.mem_append.mp hc with hc | hc
  · rcases List.mem_append.mp hc with hc | hc
    · have hall : ∀ c ∈ urlPrefix, HrefChar c := by
        unfold HrefChar
        decide
      exact hall c hc
    rcases List.mem_cons.mp hc with rfl | hc
    · exact Or.inl rfl
    · exact hrefChar_quote hc
  rcases List.mem_append.mp hc with hc | hc
  · obtain ⟨seg, hseg, hc⟩ := List.mem_flatMap.mp hc
    obtain ⟨plain, -, rfl⟩ := List.mem_map.mp hseg
    rcases List.mem_cons.mp hc with rfl | hc
    · exact Or.inl rfl
    · exact hrefChar_quote hc
  · rcases hslash with rfl | rfl
    · exact absurd hc List.not_mem_nil
    · exact Or.inl (List.mem_singleton.mp hc)

/-- A path of such characters that does not begin with two slashes is split into no
authority and itself. -/
theorem urlsplit_of_hrefChar {c : Char} (hall : ∀ d ∈ '/' :: c :: t, HrefChar d) (hc : c ≠ '/') :
    urlsplit ('/' :: c :: t) = ⟨[], '/' :: c :: t⟩ := by
  have hlead : ('/' :: c :: t).dropWhile (fun c => decide (c.toNat ≤ 0x20)) = '/' :: c :: t :=
    List.dropWhile_cons_of_neg (by decide)
  have hfilter : ('/' :: c :: t).filter (fun c => c ≠ '\t' ∧ c ≠ '\r' ∧ c ≠ '\n') =
      '/' :: c :: t := by
    apply List.filter_eq_self.mpr
    intro d hd
    have hplain := (hall d hd).plain.1
    have hne : ∀ e : Char, e.toNat ≤ 0x20 → d ≠ e := by
      rintro e he rfl
      omega
    exact decide_eq_true ⟨hne '\t' (by decide), hne '\r' (by decide), hne '\n' (by decide)⟩
  have hscheme : afterScheme ('/' :: c :: t) = '/' :: c :: t := by
    unfold afterScheme
    rw [List.takeWhile_cons_of_pos (by decide)]
    apply if_neg
    rintro ⟨-, h, -⟩
    change Char.isAlpha '/' = true at h
    exact absurd h (by decide)
  have htwo : ¬ ['/', '/'] <+: '/' :: c :: t := by
    rw [List.cons_prefix_cons, List.cons_prefix_cons]
    rintro ⟨-, h, -⟩
    exact hc h.symm
  unfold urlsplit
  simp only [hlead, hfilter, hscheme, if_neg htwo]
  congr 1
  apply List.takeWhile_eq_self_iff.mpr
  intro d hd
  exact decide_eq_true (hall d hd).plain.2

theorem urlsplit_href (vid : Text) (p : DavPath) (isDir : Bool) :
    urlsplit (href vid p.text isDir) = ⟨[], href vid p.text isDir⟩ := by
  have hall := hrefChar_href vid p isDir
  obtain ⟨slash, -, hhref⟩ := href_eq vid p isDir
  have hstart : ∃ t, href vid p.text isDir = '/' :: 'd' :: t := ⟨_, hhref⟩
  obtain ⟨t, ht⟩ := hstart
  rw [ht] at hall ⊢
  exact urlsplit_of_hrefChar hall (by decide)

/-! ### What leads where -/

variable {m : Manager} {route : Text → Option (Text × Text)} {host url raw vid rest tail : Text}
  {rec other : VolumeStore.VolumeRecord} {p : DavPath} {isDir : Bool}

/-- The URL names this server, or none. -/
def OwnHost (host url : Text) : Prop := (urlsplit url).netloc = [] ∨ (urlsplit url).netloc = host

/-- The path begins as the hrefs of the volume do, character by character. -/
def Literal (rec : VolumeStore.VolumeRecord) (url : Text) : Prop :=
  volumeUrl rec.id.toList <+: (urlsplit url).path

/-- What a first segment leaves behind its volume's id does not count in a path. -/
def Fades (extra rest : Text) : Prop :=
  extra = [] ∨ extra = ['.'] ∨ extra = ['.', '.'] ∨ Climbs rest

/-- What follows the volume in a decoded path, and the argument the view is handed. -/
def Tail (tail rest : Text) : Prop :=
  tail = [] ∧ rest = [] ∨ tail = '/' :: rest ∨ tail = '/' :: (rest ++ ['/'])

theorem Tail.head (h : Tail tail rest) : tail.head?.getD '/' = '/' := by
  rcases h with ⟨rfl, -⟩ | rfl | rfl
  · rfl
  · rfl
  · rfl

theorem Tail.normPath (h : Tail tail rest) : Aloelite.normPath tail = Aloelite.normPath rest := by
  apply DavPath.ext_segs
  rcases h with ⟨rfl, rfl⟩ | rfl | rfl
  · rfl
  · exact segs_normPath_cons rest
  · rw [segs_normPath_cons, segs_normPath_concat]

theorem Tail.fades_iff (h : Tail tail rest) (hseg : '/' ∉ seg) :
    Aloelite.normPath (seg ++ tail) = Aloelite.normPath rest ↔ Fades seg rest := by
  rcases h with ⟨rfl, rfl⟩ | rfl | rfl
  · have hsame : Aloelite.normPath (seg ++ ['/']) = Aloelite.normPath seg :=
      DavPath.ext_segs (segs_normPath_concat seg)
    rw [List.append_nil, ← hsame]
    exact normPath_seg_iff hseg
  · exact normPath_seg_iff hseg
  · have hsame : Aloelite.normPath (rest ++ ['/']) = Aloelite.normPath rest :=
      DavPath.ext_segs (segs_normPath_concat rest)
    rw [← hsame, normPath_seg_iff hseg, climbs_concat]
    rfl

/-- A text cut before its first slash. -/
theorem cut_slash (t : Text) :
    '/' ∉ t.takeWhile (· ≠ '/') ∧ (t.dropWhile (· ≠ '/')).head?.getD '/' = '/' := by
  constructor
  · intro h
    have hne := List.mem_takeWhile_imp h
    exact of_decide_eq_true hne rfl
  · have hhead := List.head?_dropWhile_not (fun c => decide (c ≠ '/')) t
    cases hdrop : t.dropWhile (· ≠ '/') with
    | nil => rfl
    | cons c u =>
      rw [hdrop] at hhead
      by_contra hne
      exact hne (by simpa using hhead)

/-- A path that begins with the URL of a volume, matched by the rules: the volume it is
matched for has a name that begins with that id. -/
theorem Routes.literal (hroutes : Routes route)
    (hroute : route (volumeUrl rec.id.toList ++ t) = some (vid, rest))
    (hid : '/' ∉ rec.id.toList) : ∃ extra tail, vid = rec.id.toList ++ extra ∧ '/' ∉ extra ∧
      unquote t = extra ++ tail ∧ Tail tail rest := by
  obtain ⟨-, hvid, tail, hread, htail⟩ := hroutes.reads hroute
  have htail : Tail tail rest := htail
  rw [(spells_volumeUrl rec.id.toList).unquote_append, List.append_assoc] at hread
  have hread : rec.id.toList ++ unquote t = vid ++ tail :=
    (List.cons.inj (List.append_cancel_left hread)).2
  obtain ⟨hextra, hhead⟩ := cut_slash (unquote t)
  have hcut : (unquote t).takeWhile (· ≠ '/') ++ (unquote t).dropWhile (· ≠ '/') = unquote t :=
    List.takeWhile_append_dropWhile
  rw [← hcut, ← List.append_assoc] at hread
  have hplain : '/' ∉ rec.id.toList ++ (unquote t).takeWhile (· ≠ '/') := by
    intro h
    rcases List.mem_append.mp h with h | h
    · exact hid h
    · exact hextra h
  obtain ⟨hvid', htail'⟩ := DavPath.append_inj_of_slash hplain hvid hhead htail.head hread
  refine ⟨_, tail, hvid'.symm, hextra, ?_, htail⟩
  rw [← htail']
  exact hcut.symm

theorem destination_eq (hraw : url ≠ []) (hhost : OwnHost host url)
    (hpath : (urlsplit url).path = volumeUrl rec.id.toList ++ t) :
    destination host rec (some url) = .ok (normPath (unquote t)) := by
  have hown : ¬ ((urlsplit url).netloc ≠ [] ∧ (urlsplit url).netloc ≠ host) := by
    rintro ⟨hnone, hother⟩
    rcases hhost with h | h
    · exact hnone h
    · exact hother h
  unfold destination
  simp only [if_neg hraw, if_neg hown, hpath, List.drop_left]
  exact if_neg (not_not.mpr (List.prefix_append _ _))

theorem destination_ok (h : destination host rec (some url) = .ok p) :
    OwnHost host url ∧ Literal rec url := by
  unfold destination at h
  simp only at h
  split at h
  · cases h
  · split at h
    · cases h
    next hown =>
      split at h
      · cases h
      next hstart =>
        rw [not_not] at hstart
        refine ⟨?_, hstart⟩
        by_contra hother
        rw [OwnHost, not_or] at hother
        exact hown hother

theorem Leads.ne_nil (hroutes : Routes route) (h : Leads m route url vid rest other) :
    url ≠ [] := by
  rintro rfl
  obtain ⟨-, -, tail, hread, -⟩ := hroutes.reads h.1
  cases hread

/-- The hrefs of a volume lead to it, by its id. -/
theorem href_leads (hroutes : Routes route) (hrec : m.store.get rec.id = some rec)
    (hid : rec.id ≠ "" ∧ '/' ∉ rec.id.toList)
    (p : DavPath) (isDir : Bool) :
    ∃ rest, Leads m route (href rec.id.toList p.text isDir) rec.id.toList rest rec ∧ normPath rest =
      p := by
  obtain ⟨slash, hslash, hhref⟩ := href_eq rec.id.toList p isDir
  have hspells : Spells slash slash := by
    rcases hslash with rfl | rfl
    · exact @spells_quote [] List.not_mem_nil []
    · exact spells_slash
  have hread : unquote (href rec.id.toList p.text isDir) = urlPrefix ++ '/' ::
      (rec.id.toList ++ (DavPath.body p.segs ++ slash)) := by
    rw [hhref, ((spells_volumeUrl _).append ((spells_body p.segs).append hspells)).unquote,
      List.append_assoc]
    rfl
  have hne : rec.id.toList ≠ [] := by
    intro h
    exact hid.1 (String.toList_eq_nil_iff.mp h)
  obtain ⟨rest, hroute⟩ := hroutes.finds hne hid.2 p.plain hslash hread
  refine ⟨rest, ⟨?_, ?_⟩, ?_⟩
  · rw [urlsplit_href]
    exact hroute
  · rw [String.ofList_toList, Manager.requireVolume, hrec]
  · obtain ⟨-, -, tail, hread', htail⟩ := hroutes.reads hroute
    have htail : Tail tail rest := htail
    rw [hread] at hread'
    have hbody : DavPath.body p.segs ++ slash = tail :=
      List.append_cancel_left (List.cons.inj (List.append_cancel_left hread')).2
    rw [← htail.normPath, ← hbody, normPath_body_slash p hslash]

theorem destination_href (p : DavPath) (isDir : Bool) :
    destination host rec (some (href rec.id.toList p.text isDir)) = .ok p := by
  obtain ⟨slash, hslash, hhref⟩ := href_eq rec.id.toList p isDir
  have hspells : Spells slash slash := by
    rcases hslash with rfl | rfl
    · exact @spells_quote [] List.not_mem_nil []
    · exact spells_slash
  have hne : href rec.id.toList p.text isDir ≠ [] := by
    rw [hhref]
    exact List.cons_ne_nil _ _
  have hsplit := urlsplit_href rec.id.toList p isDir
  have hpath : (urlsplit (href rec.id.toList p.text isDir)).path =
      volumeUrl rec.id.toList ++ (DavPath.body (p.segs.map (quote [])) ++ slash) := by
    rw [hsplit, hhref]
  rw [destination_eq hne (Or.inl (by rw [hsplit])) hpath,
    ((spells_body p.segs).append hspells).unquote,
    normPath_body_slash p hslash]

/-- A URL of the volume is taken for the same path just if it is spelt as an href. -/
theorem destination_iff (hroutes : Routes route) (hid : '/' ∉ rec.id.toList)
    (hleads : Leads m route url vid rest rec) :
    destination host rec (some url) = .ok (normPath rest) ↔
      OwnHost host url ∧ Literal rec url ∧ Fades (vid.drop rec.id.toList.length) rest := by
  have hraw := hleads.ne_nil hroutes
  constructor
  · intro h
    obtain ⟨hhost, hliteral⟩ := destination_ok h
    refine ⟨hhost, hliteral, ?_⟩
    obtain ⟨t, ht⟩ := hliteral
    have hroute := hleads.1
    rw [← ht] at hroute
    obtain ⟨extra, tail, hvid, hextra, hread, htail⟩ := hroutes.literal hroute hid
    rw [destination_eq hraw hhost ht.symm, Except.ok.injEq, hread, htail.fades_iff hextra] at h
    rw [hvid, List.drop_left]
    exact h
  · rintro ⟨hhost, ⟨t, ht⟩, hfades⟩
    have hroute := hleads.1
    rw [← ht] at hroute
    obtain ⟨extra, tail, hvid, hextra, hread, htail⟩ := hroutes.literal hroute hid
    rw [hvid, List.drop_left] at hfades
    rw [destination_eq hraw hhost ht.symm, Except.ok.injEq, hread, htail.fades_iff hextra]
    exact hfades

theorem destination_refused_iff (hraw : url ≠ []) :
    (∃ f, destination host rec (some url) = .error f) ↔ ¬ (OwnHost host url ∧ Literal rec url) := by
  constructor
  · rintro ⟨f, hf⟩ ⟨hhost, t, ht⟩
    rw [destination_eq hraw hhost ht.symm] at hf
    cases hf
  · intro h
    cases hd : destination host rec (some url) with
    | error f => exact ⟨f, rfl⟩
    | ok p => exact absurd (destination_ok hd) h

/-- An href leads back to its path both ways. Another URL of the volume is a destination
for the same path just if it is spelt with the quoted id, and a URL of another volume is
one just if its name makes it begin so. -/
theorem dav_urls_iff (hroutes : Routes route) (hrec : m.store.get rec.id = some rec)
    (hid : rec.id ≠ "" ∧ '/' ∉ rec.id.toList) :
    (∀ (p : DavPath) (isDir : Bool),
      (∃ rest, Leads m route (href rec.id.toList p.text isDir) rec.id.toList rest rec ∧
        normPath rest = p) ∧
      destination host rec (some (href rec.id.toList p.text isDir)) = .ok p) ∧
    (∀ url vid rest, Leads m route url vid rest rec →
      (destination host rec (some url) = .ok (normPath rest) ↔
        OwnHost host url ∧ Literal rec url ∧ Fades (vid.drop rec.id.toList.length) rest)) ∧
    ∀ url vid rest other, Leads m route url vid rest other → other ≠ rec →
      ((∃ f, destination host rec (some url) = .error f) ↔
        ¬ (OwnHost host url ∧ Literal rec url)) := by
  refine ⟨fun p isDir => ⟨href_leads hroutes hrec hid p isDir, destination_href p isDir⟩, ?_, ?_⟩
  · exact fun url vid rest hleads => destination_iff hroutes hid.2 hleads
  · exact fun url vid rest other hleads _ => destination_refused_iff (hleads.ne_nil hroutes)

/-! ### Two volumes -/

/-- The view's argument for what follows a volume. -/
def argument : Text → Text
  | [] => []
  | _ :: rest => if ['/'] <:+ rest then rest.dropLast else rest

theorem tail_argument (h : tail.head?.getD '/' = '/') : Tail tail (argument tail) := by
  cases tail with
  | nil => exact Or.inl ⟨rfl, rfl⟩
  | cons c rest =>
    have hc : c = '/' := h
    subst hc
    rw [argument]
    split
    next hslash =>
      obtain ⟨front, hfront⟩ := hslash
      right
      right
      rw [← hfront, List.dropLast_concat]
    next => exact Or.inr (Or.inl rfl)

/-- The two rules, on paths without doubled slashes. -/
def ruleMatch (raw : Text) : Option (Text × Text) :=
  let start := urlPrefix ++ ['/']
  if start <+: unquote raw then
    let after := (unquote raw).drop start.length
    if after.takeWhile (· ≠ '/') = [] then none
    else some (after.takeWhile (· ≠ '/'), argument (after.dropWhile (· ≠ '/')))
  else none

theorem routes_ruleMatch : Routes ruleMatch where
  reads := by
    intro raw vid rest h
    unfold ruleMatch at h
    simp only at h
    split at h
    next hstart =>
      obtain ⟨after, hafter⟩ := hstart
      rw [← hafter, List.drop_left] at h
      split at h
      · cases h
      next hvid =>
        cases h
        obtain ⟨hplain, hhead⟩ := cut_slash after
        refine ⟨hvid, hplain, _, ?_, tail_argument hhead⟩
        rw [List.takeWhile_append_dropWhile, ← hafter, List.append_assoc]
        rfl
    next => cases h
  finds := by
    intro raw vid segs slash hne hvid hsegs hslash hread
    have hdrop : urlPrefix ++ ['/'] ++ (vid ++ (DavPath.body segs ++ slash)) = unquote raw := by
      rw [hread, List.append_assoc]
      rfl
    have hhead : (DavPath.body segs ++ slash).head?.getD '/' = '/' := by
      cases segs with
      | nil =>
        rcases hslash with rfl | rfl
        · rfl
        · rfl
      | cons seg segs => rfl
    obtain ⟨hplain, hcut⟩ := cut_slash (vid ++ (DavPath.body segs ++ slash))
    obtain ⟨htake, -⟩ :=
      DavPath.append_inj_of_slash hplain hvid hcut hhead List.takeWhile_append_dropWhile
    unfold ruleMatch
    rw [if_pos ⟨_, hdrop⟩, ← hdrop]
    simp only [List.drop_left, htake, if_neg hne]
    exact ⟨_, rfl⟩

def docs : VolumeStore.VolumeRecord :=
  { id := "ab12", name := "docs", fsId := "f", encrypted := false, createdAt := 0, mounted := false,
    mountpoint := none }

/-- A volume with a name that begins with the id of the other. -/
def copies : VolumeStore.VolumeRecord := { docs with id := "cd34", name := "ab12x" }

def twoVolumes : Manager :=
  { front := { reg := { files := fun _ => {} } },
    store := { mem := { volumes := [docs, copies] } } }

theorem dav_urls_iff_docs :
    (∃ rest, Leads twoVolumes ruleMatch (href docs.id.toList (normPath "/a b".toList).text true)
      docs.id.toList rest docs ∧
      normPath rest = normPath "/a b".toList) ∧
    destination "h".toList docs (some "http://h/dav/ab12/%61".toList) =
      .ok (normPath "a".toList) := by
  have hdocs : twoVolumes.store.get docs.id = some docs := by decide
  obtain ⟨hhref, hown, -⟩ :=
    @dav_urls_iff twoVolumes ruleMatch "h".toList docs routes_ruleMatch hdocs (by decide)
  refine ⟨(hhref _ true).1, (hown _ "ab12".toList "a".toList ⟨by decide +kernel, rfl⟩).mpr
    ⟨Or.inr (by decide +kernel), ?_, ?_⟩⟩
  · unfold Literal
    decide +kernel
  · exact Or.inl (by decide)

/-- A volume's URL by its name is refused as a destination, and the URL of the other one
is taken for a path of this one. -/
theorem dav_urls_disagree :
    Leads twoVolumes ruleMatch "/dav/docs/y".toList "docs".toList "y".toList docs ∧
    (destination "h".toList docs (some "/dav/docs/y".toList)).isOk = false ∧
    Leads twoVolumes ruleMatch "/dav/ab12x/y".toList "ab12x".toList "y".toList copies ∧
      copies ≠ docs ∧
    destination "h".toList docs (some "/dav/ab12x/y".toList) = .ok (normPath "x/y".toList) := by
  refine ⟨⟨?_, ?_⟩, ?_, ⟨?_, ?_⟩, ?_, ?_⟩
  · decide +kernel
  · rfl
  · decide +kernel
  · decide +kernel
  · rfl
  · decide
  · decide +kernel

end DavUrls

end Aloelite
