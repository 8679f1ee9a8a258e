import Aloelite.Http
import Aloelite.ReaderSteps
import Aloelite.LockedNodes

/-! Entity tags as strong validators. A tag is a node and its committed version, so it
identifies bytes where a committed version is never taken again and never written into:
where closes come before any commit that overtakes their claim, and no flush goes into
the version that is committed. -/
namespace Aloelite

open Fallible KeyedRows

variable {C : Crypto} {M : Msgpack} {E : Env} {k : Cipher} {db db' : Db} {s s' t : Sys} {l : Label}
  {n : NodeId} {v c : ℕ} {op : Op} {conn : ConnId} {ids : IdText} {info info' : NodeInfo}

/-! ### Committed versions that stay what they are -/

/-- A flush does not go into the version that is committed. -/
def FlushesAbove (s : Sys) (l : Label) : Prop :=
  match l.op with
  | .fdFlush fd => ∀ f ∈ s.fds[fd]?, f.d.closed = false → f.d.writing = true →
      f.d.version = none ∨ f.d.version ≠ s.db.committedVersion f.d.node
  | _ => True

/-- The guard of a run. -/
def KeepsTags (s : Sys) (l : Label) : Prop := FreshClaims s l ∧ FlushesAbove s l

/-- A step that takes the rows of a committed version away or adds to them is ruled out
by the guard. -/
theorem KeepsTags.leavesVersion (hc : s.db.committedVersion n = some v)
    (hstaging : ∀ f ∈ l.op.staging s, f.d.node = n → f.d.claims s.db ≠ v) :
    LeavesVersion n v s l := by
  refine ⟨lt_nextVersion hc, ?_, hstaging⟩
  intro volume _ r hr
  obtain ⟨hrow, hid, hversion⟩ := Db.mem_manifest.mp hr
  exact survivesPrune_committed (hid ▸ hc) hrow hversion

/-- What a stream claims that has claimed nothing yet is above the committed version. -/
theorem claims_ne_committed {d : Descriptor} (hc : s.db.committedVersion d.node = some v)
    (h : d.version = none ∨ d.version ≠ s.db.committedVersion d.node) : d.claims s.db ≠ v := by
  rw [Descriptor.claims]
  cases hv : d.version with
  | none =>
    have hlt := lt_nextVersion hc
    exact Nat.ne_of_gt hlt
  | some w =>
    rw [hv, hc] at h
    rcases h with h | h
    · cases h
    · intro heq
      exact h (congrArg some heq)

theorem exec_sameVersion (hs : s.db.Sound) (hp : s.db.Pooled) (hn : (s.db.node? n).isSome)
    (hkeeps : KeepsTags s ⟨E, conn, op⟩) (hc : s.db.committedVersion n = some v) :
    SameVersion n v s.db (exec C M E s conn op).1.db := by
  have hstep : (∀ f ∈ op.staging s, f.d.node = n → f.d.claims s.db ≠ v) →
      SameVersion n v s.db (exec C M E s conn op).1.db := by
    intro hstaging
    have heffect : Effect C E s op (exec C M E s conn op).1.db := exec_effect hs.linked
    have hleaves : LeavesVersion n v s ⟨E, conn, op⟩ := KeepsTags.leavesVersion hc hstaging
    exact heffect.sameVersion hs hp hn hleaves
  have hsame : SameVersion n v s.db s.db := SameVersion.refl n v s.db
  obtain ⟨hfresh, hflush⟩ := hkeeps
  -- only a flush or a close stages rows under a version; the guard keeps that from being `v`
  cases op with
  | fdFlush fd =>
    cases hf : s.fds[fd]? with
    | none =>
      apply hstep
      intro f hmem
      rw [Op.staging, hf] at hmem
      cases hmem
    | some f =>
      by_cases hlive : f.d.writing = true ∧ f.d.closed = false
      · apply hstep
        intro f' hmem hnode
        rw [Op.staging, hf] at hmem
        obtain rfl := Option.some.inj hmem
        subst hnode
        exact claims_ne_committed hc (hflush f hf hlive.2 hlive.1)
      · have hidle : (exec C M E s conn (.fdFlush fd)).1 = s := by
          simp only [exec, onFd, hf, fdStep, if_neg hlive]
        rw [hidle]
        exact hsame
  | fdClose fd =>
    cases hf : s.fds[fd]? with
    | none =>
      apply hstep
      intro f hmem
      rw [Op.staging, hf] at hmem
      cases hmem
    | some f =>
      have hexec : exec C M E s conn (.fdClose fd) = fdStep C E s fd f (.fdClose fd) := by
        simp only [exec, onFd, hf]
      by_cases hcommits : f.d.closed = false ∧ f.d.requireLock E s.db = .ok ()
      · apply hstep
        intro f' hmem hnode
        rw [Op.staging, hf] at hmem
        obtain rfl := Option.some.inj hmem
        subst hnode
        apply claims_ne_committed hc
        cases hv : f.d.version with
        | none => exact Or.inl rfl
        | some w =>
          right
          have hlt := hfresh f w v hf hcommits.1 hv hcommits.2 hc
          rw [hc]
          exact fun heq => absurd (Option.some.inj heq) (Nat.ne_of_gt hlt)
      · -- closed already, or the lock is gone: nothing is committed
        rw [hexec, fdStep]
        split
        · exact hsame
        refine fdTransact_db (P := fun db => SameVersion n v s.db db) hsame ?_
        intro tx h
        rw [Descriptor.close] at h
        split at h
        · obtain rfl := Except.ok.inj h
          exact hsame
        next hopen =>
          obtain ⟨hlock, -⟩ := commit_ok h
          rw [not_or, Bool.not_eq_true] at hopen
          exact absurd ⟨hopen.1, hlock⟩ hcommits
  | _ =>
    apply hstep
    intro f hmem
    cases (Option.mem_def.mp hmem : none = some f)

/-- The committed version of an entry, seen from a moment when it was `v`. -/
structure Since (n : NodeId) (v : ℕ) (db : Db) (t : Sys) : Prop where
  sound : t.db.Sound
  pooled : t.db.Pooled
  node : (t.db.node? n).isSome
  version : ∃ c, t.db.committedVersion n = some c ∧ v ≤ c ∧ (c = v → SameVersion n v db t.db)

theorem Since.step (h : Since n v db t) (hkeeps : KeepsTags t l) : Since n v db (step C M t l) := by
  obtain ⟨E, conn, op⟩ := l
  have heffect : Effect C E t op (exec C M E t conn op).1.db := exec_effect h.sound.linked
  obtain ⟨c, hc, hle, hsame⟩ := h.version
  refine ⟨step_sound h.sound, heffect.pooled h.sound h.pooled,
    heffect.node_persists h.sound h.node, ?_⟩
  obtain ⟨c', hc', hcases⟩ := exec_committedVersion (C := C) (M := M) h.sound hkeeps.1 hc
  refine ⟨c', hc', ?_, ?_⟩
  · omega
  · intro heq
    -- still `v`, so it was `v` before the step
    have hv : c = v := by omega
    subst hv
    exact (hsame rfl).trans (exec_sameVersion h.sound h.pooled h.node hkeeps hc)

/-- A committed version that an entry has at two moments has the same rows. -/
theorem sameVersion_of_committed (h : Reaches C M KeepsTags s)
    (hrun : GuardedRuns.Run (step C M) KeepsTags s s') (hn : (s.db.node? n).isSome)
    (hc : s.db.committedVersion n = some v) (hc' : s'.db.committedVersion n = some v) :
    SameVersion n v s.db s'.db := by
  have hsince : Since n v s.db s' := by
    refine hrun.invariant (fun t l hkeeps ht => ht.step hkeeps) ?_
    exact ⟨h.sound, h.pooled, hn, v, hc, le_rfl, fun _ => SameVersion.refl n v s.db⟩
  obtain ⟨c, hc₁, -, hsame⟩ := hsince.version
  exact hsame (Option.some.inj (hc₁.symm.trans hc'))

/-! ### The text of a tag -/

theorem append_sep_inj {α : Type*} {a : α} {x y z w : List α} (hz : a ∉ z) (hw : a ∉ w)
    (h : x ++ a :: z = y ++ a :: w) : x = y ∧ z = w := by
  rcases List.append_eq_append_iff.mp h with ⟨b, rfl, htail⟩ | ⟨b, rfl, htail⟩
  · cases b with
    | nil => exact ⟨(List.append_nil x).symm, (List.cons.inj htail).2⟩
    | cons b bs =>
      obtain ⟨-, rfl⟩ := List.cons.inj htail
      simp at hz
  · cases b with
    | nil => exact ⟨List.append_nil y, (List.cons.inj htail).2.symm⟩
    | cons b bs =>
      obtain ⟨-, rfl⟩ := List.cons.inj htail
      simp at hw

theorem digits_plain {c : Char} (hc : c.isDigit = false) (n : ℕ) : c ∉ digits n := by
  intro hmem
  have hdigit : c.isDigit = true := Nat.isDigit_of_mem_toDigits (by decide) (by decide) hmem
  rw [hc] at hdigit
  cases hdigit

theorem digits_injective : Function.Injective digits := by
  intro a b h
  calc
    a = Nat.ofDigitChars 10 (digits a) 0 := Nat.ofDigitChars_ten_toDigits.symm
    _ = Nat.ofDigitChars 10 (digits b) 0 := by rw [h]
    _ = b := Nat.ofDigitChars_ten_toDigits

theorem intText_plain (i : Int) : '"' ∉ intText i := by
  cases i with
  | ofNat n => exact digits_plain (by decide) n
  | negSucc n =>
    rw [intText, List.mem_cons, not_or]
    exact ⟨by decide, digits_plain (by decide) (n + 1)⟩

theorem quoteText_injective : Function.Injective quoteText := by
  intro a b h
  exact List.append_cancel_right (List.cons.inj h).2

/-- What stands between the quotes of a strong tag. -/
def tagText (ids : IdText) (n : NodeId) (v : ℕ) : Text := ids.text n ++ '-' :: digits v

theorem tagText_plain (ids : IdText) (n : NodeId) (v : ℕ) : '"' ∉ tagText ids n v := by
  rw [tagText, List.mem_append, List.mem_cons, not_or, not_or]
  exact ⟨ids.plain n, by decide, digits_plain (by decide) v⟩

theorem tagText_inj {m : NodeId} {w : ℕ} (h : tagText ids n v = tagText ids m w) :
    n = m ∧ v = w := by
  obtain ⟨htext, hdigits⟩ :=
    append_sep_inj (digits_plain (by decide) v) (digits_plain (by decide) w) h
  exact ⟨ids.injective htext, digits_injective hdigits⟩

theorem davEtag_of_version (hv : info.version = some v) :
    davEtag ids info = quoteText (tagText ids info.id v) := by
  simp only [davEtag, hv]
  rfl

theorem s3Etag_of_version (hv : info.version = some v) :
    s3Etag ids info = quoteText (tagText ids info.id v) := by
  simp only [s3Etag, hv]
  rfl

/-- The weak form is never that of a node with a version. -/
theorem davEtag_inj (hv : info.version = some v) (h : davEtag ids info' = davEtag ids info) :
    info'.id = info.id ∧ info'.version = some v := by
  rw [davEtag_of_version hv] at h
  cases hv' : info'.version with
  | none =>
    simp only [davEtag, hv', quoteText, List.cons_append, List.cons.injEq] at h
    exact absurd h.1 (by decide)
  | some w =>
    rw [davEtag_of_version hv'] at h
    obtain ⟨hid, rfl⟩ := tagText_inj (quoteText_injective h)
    exact ⟨hid, rfl⟩

/-! ### Reading a tag back -/

theorem quotedAt_quoteText {t : Text} (rest : Text) (ht : '"' ∉ t) :
    quotedAt (quoteText t ++ rest) = some (t, rest) := by
  have hother : ∀ c ∈ t, decide (c ≠ '"') = true := by
    intro c hc
    rw [decide_eq_true_eq]
    rintro rfl
    exact ht hc
  have hspan : (t ++ '"' :: rest).span (· ≠ '"') = (t, '"' :: rest) := by
    rw [List.span_eq_takeWhile_dropWhile, List.takeWhile_append_of_pos hother,
      List.dropWhile_append_of_pos hother]
    simp
  have hcons : quoteText t ++ rest = '"' :: (t ++ '"' :: rest) := by
    rw [quoteText, List.cons_append, List.cons_append, List.append_assoc, List.singleton_append]
  rw [hcons, quotedAt, hspan]

theorem etagAt_quoteText {t : Text} (rest : Text) (ht : '"' ∉ t) :
    etagAt (quoteText t ++ rest) = some ((false, t), rest) := by
  have hquoted := quotedAt_quoteText rest ht
  rw [quoteText, List.cons_append] at hquoted ⊢
  rw [etagAt, hquoted]
  · rfl
  · intro cs heq
    exact absurd (List.cons.inj heq).1 (by decide)

theorem strip_quoteText (t : Text) : strip (quoteText t) = quoteText t := by
  have hquote : isSpace '"' = false := by decide
  rw [strip, quoteText, List.cons_append,
    List.dropWhile_cons_of_neg (by simp [hquote]), ← List.cons_append,
    List.rdropWhile_concat_neg _ _ _ (by simp [hquote])]

theorem strip_weak (t : Text) : strip ('W' :: '/' :: quoteText t) = 'W' :: '/' :: quoteText t := by
  have hquote : isSpace '"' = false := by decide
  have hw : isSpace 'W' = false := by decide
  have hcons : 'W' :: '/' :: quoteText t = ('W' :: '/' :: '"' :: t) ++ ['"'] := rfl
  rw [strip, List.dropWhile_cons_of_neg (by simp [hw]), hcons,
    List.rdropWhile_concat_neg _ _ _ (by simp [hquote])]

theorem parseEtagList_strong {t : Text} (ht : '"' ∉ t) :
    parseEtagList (quoteText t) = .tags [(false, t)] := by
  have hat : etagAt (quoteText t) = some ((false, t), []) := by
    have happ := etagAt_quoteText [] ht
    rwa [List.append_nil] at happ
  have hrest : ∀ fuel, etagsIn fuel [] = [] := by
    intro fuel
    induction fuel with
    | zero => rfl
    | succ fuel ih => exact ih
  have hlen : (quoteText t).length = t.length + 1 + 1 := by simp [quoteText]
  rw [parseEtagList, strip_quoteText, if_neg, hlen, etagsIn, hat]
  · simp only [hrest]
  · rw [quoteText]
    intro heq
    exact absurd (List.cons.inj heq).1 (by decide)

/-- What a strong tag matches under strong comparison is that tag. -/
theorem etagMatches_strong {t : Text}
    (h : etagMatches [(false, t)] (some (davEtag ids info)) true = true) :
    davEtag ids info = quoteText t := by
  cases hv : info.version with
  | none =>
    have hweak : davEtag ids info =
        'W' :: '/' :: quoteText (ids.text info.id ++ '-' :: intText info.modifiedAt) := by
      simp only [davEtag, hv]
    have hplain : '"' ∉ ids.text info.id ++ '-' :: intText info.modifiedAt := by
      rw [List.mem_append, List.mem_cons, not_or, not_or]
      exact ⟨ids.plain _, by decide, intText_plain _⟩
    have hquoted := quotedAt_quoteText [] hplain
    rw [List.append_nil] at hquoted
    rw [etagMatches, hweak, Option.bind_some, strip_weak, wholeEtag, etagAt, hquoted] at h
    simp at h
  | some v =>
    have hat := etagAt_quoteText [] (tagText_plain ids info.id v)
    rw [List.append_nil] at hat
    rw [davEtag_of_version hv] at h ⊢
    rw [etagMatches, Option.bind_some, strip_quoteText, wholeEtag, hat] at h
    simp only [List.any_cons, List.any_nil, Bool.or_false, Bool.and_eq_true, decide_eq_true_eq] at h
    rw [h.1]

/-- A precondition that a single strong tag passes. -/
theorem checkPreconditions_ok {t : Text} {ifNoneMatch : Option Text} {present isRead b : Bool}
    (ht : '"' ∉ t)
    (h : checkPreconditions (some (quoteText t)) ifNoneMatch
      (some (davEtag ids info)) present isRead = .ok b) :
    davEtag ids info = quoteText t := by
  rw [checkPreconditions, Option.map_some, parseEtagList_strong ht] at h
  obtain ⟨u, hrefuse, -⟩ := bind_eq_ok.mp h
  apply etagMatches_strong
  simpa using refuse_eq_ok.mp hrefuse

theorem ifRangeHolds_strong {t : Text} (ht : '"' ∉ t)
    (h : ifRangeHolds (quoteText t) (davEtag ids info) = true) :
    davEtag ids info = quoteText t := by
  rw [ifRangeHolds, parseEtagList_strong ht] at h
  exact etagMatches_strong h

/-! ### The result -/

/-- The bytes of an entry are those of its committed version. -/
theorem readContentBytes_of_version (hc : db.committedVersion n = some v) :
    readContentBytes C k db n = (do
      let parts ← openChunks C k (db.readChunks n v)
      return parts.flatten) := by
  obtain ⟨r, hr, rfl⟩ := Option.map_eq_some_iff.mp hc
  rw [readContentBytes, hr]

/-- Two infos of one entity: the same node, and the same bytes for every cipher. -/
def SameEntity (C : Crypto) (db db' : Db) (info info' : NodeInfo) : Prop :=
  info'.id = info.id ∧ ∀ k, readContentBytes C k db' info'.id = readContentBytes C k db info.id

theorem sameEntity_of_tags (h : Reaches C M KeepsTags s)
    (hrun : GuardedRuns.Run (step C M) KeepsTags s s') {r r' : NodeRow}
    (hr : s.db.node? r.nodeId = some r) (hid : r'.nodeId = r.nodeId)
    (hv : (NodeInfo.fromRow s.db r).version = some v)
    (hv' : (NodeInfo.fromRow s'.db r').version = some v) :
    SameEntity C s.db s'.db (.fromRow s.db r) (.fromRow s'.db r') := by
  refine ⟨hid, ?_⟩
  intro k
  have hnode : (s.db.node? r.nodeId).isSome := by rw [hr, Option.isSome_some]
  have hc : s.db.committedVersion r.nodeId = some v := hv
  have hc' : s'.db.committedVersion r.nodeId = some v := by
    rw [← hid]
    exact hv'
  have hsame := sameVersion_of_committed h hrun hnode hc hc'
  change readContentBytes C k s'.db r'.nodeId = readContentBytes C k s.db r.nodeId
  rw [hid, readContentBytes_of_version hc, readContentBytes_of_version hc', hsame.readChunks]

/-- Along every run whose closes come before any commit that overtakes their claim and
whose flushes go into no committed version, an entry that has one committed version at
two moments has the same bytes at both: equal strong tags name one entity, and neither
`If-Match` nor `If-Range` lets a changed one pass. -/
theorem strong_tags_identify_bytes (h : Reaches C M KeepsTags s)
    (hrun : GuardedRuns.Run (step C M) KeepsTags s s') :
    (∀ n v, (s.db.node? n).isSome → s.db.committedVersion n = some v →
      s'.db.committedVersion n = some v →
        ∀ k, readContentBytes C k s'.db n = readContentBytes C k s.db n) ∧
      ∀ (ids : IdText) (r r' : NodeRow) (v : ℕ), s.db.node? r.nodeId = some r →
        s'.db.node? r'.nodeId = some r' →
        let info := NodeInfo.fromRow s.db r
        let info' := NodeInfo.fromRow s'.db r'
        info.version = some v →
          (davEtag ids info' = davEtag ids info → SameEntity C s.db s'.db info info') ∧
          (info'.version ≠ none → s3Etag ids info' = s3Etag ids info →
          SameEntity C s.db s'.db info info') ∧
          (∀ ifNoneMatch present isRead b,
            checkPreconditions (some (davEtag ids info)) ifNoneMatch
              (some (davEtag ids info')) present isRead = .ok b →
              SameEntity C s.db s'.db info info') ∧
          (ifRangeHolds (davEtag ids info) (davEtag ids info') = true →
          SameEntity C s.db s'.db info info') := by
  constructor
  · intro n v hn hc hc' k
    have hsame := sameVersion_of_committed h hrun hn hc hc'
    rw [readContentBytes_of_version hc, readContentBytes_of_version hc', hsame.readChunks]
  · intro ids r r' v hr hr' info info' hv
    have hplain := tagText_plain ids info.id v
    -- each of the tags spells the entry and its version, so equal tags give equal versions
    have hdav : davEtag ids info' = davEtag ids info → SameEntity C s.db s'.db info info' := by
      intro htag
      obtain ⟨hid, hv'⟩ := davEtag_inj hv htag
      exact sameEntity_of_tags h hrun hr hid hv hv'
    refine ⟨hdav, ?_, ?_, ?_⟩
    · intro hsome htag
      obtain ⟨w, hw⟩ := Option.ne_none_iff_exists'.mp hsome
      rw [s3Etag_of_version hv,
        s3Etag_of_version hw, ← davEtag_of_version hv, ← davEtag_of_version hw] at htag
      exact hdav htag
    · intro ifNoneMatch present isRead b hcheck
      apply hdav
      rw [davEtag_of_version hv] at hcheck ⊢
      exact checkPreconditions_ok hplain hcheck
    · intro hholds
      apply hdav
      rw [davEtag_of_version hv] at hholds ⊢
      exact ifRangeHolds_strong hplain hholds

/-- A stream on `x` whose first chunk is flushed while the entry stays at version 1, with
a prune of content after it. -/
def streamedRun : List Label :=
  [⟨.counting 4, 0, .openWrite 1 "x" .truncate none⟩, ⟨.counting 5, 0, .fdWrite 0 [9]⟩,
    ⟨.counting 6, 0, .fdFlush 0⟩, ⟨.counting 7, 0, .pruneContent none⟩]

/-- One byte in the entry `x`. -/
def byteRun : List Label :=
  [⟨.counting 0, 0, .createVolume none 1 none .none⟩, ⟨.counting 1, 0, .mount { volume := 0 }⟩,
    ⟨.counting 2, 0, .request 1 (.createEntry "x" [7])⟩]

theorem strong_tags_identify_bytes_streamed :
    let s := byteRun.foldl (step Crypto.xorStream Msgpack.refusing) {}
    let s' := streamedRun.foldl (step Crypto.xorStream Msgpack.refusing) s
    readContentBytes Crypto.xorStream .identity s'.db 2 =
      readContentBytes Crypto.xorStream .identity s.db 2 := by
  intro s s'
  have hguards : GuardedRuns.Guards (step Crypto.xorStream Msgpack.refusing) KeepsTags {}
      byteRun := by
    refine ⟨⟨trivial, trivial⟩, ⟨trivial, trivial⟩, ⟨trivial, trivial⟩, trivial⟩
  have hmore : GuardedRuns.Guards (step Crypto.xorStream Msgpack.refusing) KeepsTags s
      streamedRun := by
    refine ⟨⟨trivial, trivial⟩, ⟨trivial, trivial⟩, ⟨trivial, ?_⟩, ⟨trivial, trivial⟩, trivial⟩
    -- the stream has claimed nothing before its first flush
    intro f hf _ _
    cases hf
    exact Or.inl rfl
  have hresult := strong_tags_identify_bytes (reaches_foldl hguards) (GuardedRuns.Run.foldl hmore)
  exact hresult.1 2 1 (by decide +kernel) (by decide +kernel) (by decide +kernel) .identity

/-- Ids in decimal digits. -/
def IdText.decimal : IdText := ⟨digits, digits_injective, digits_plain (by decide)⟩

/-- A stream claims version 1, a write of the whole content commits version 2, the close
takes the pointer back to 1, a prune frees the 2, and the next write takes it again:
one strong tag, two contents, and `If-Match` accepts. -/
theorem strong_tag_names_two_contents :
    ∃ s s', Reaches Crypto.xorStream Msgpack.refusing (fun _ _ => True) s ∧
      GuardedRuns.Run (step Crypto.xorStream Msgpack.refusing) (fun _ _ => True) s s' ∧
      s.db.committedVersion 2 = some 2 ∧ s'.db.committedVersion 2 = some 2 ∧
      readContentBytes Crypto.xorStream .identity s.db 2 = .ok [8] ∧
      readContentBytes Crypto.xorStream .identity s'.db 2 = .ok [7] ∧
      (s.db.node? 2).map (fun r => davEtag .decimal (.fromRow s.db r)) = some "\"2-2\"".toList ∧
      (s'.db.node? 2).map (fun r => davEtag .decimal (.fromRow s'.db r)) = some "\"2-2\"".toList ∧
      checkPreconditions (some "\"2-2\"".toList) none (some "\"2-2\"".toList) true false =
        .ok false := by
  let ls : List Label := flushedRun ++ [⟨.counting 7, 0, .request 1 (.writeAll "x" [8])⟩]
  let ls' : List Label :=
    [⟨.counting 8, 0, .fdClose 0⟩, ⟨.counting 9, 0, .pruneContent none⟩,
      ⟨.counting 10, 0, .request 1 (.writeAll "x" [7])⟩]
  have hguards : GuardedRuns.Guards (step Crypto.xorStream Msgpack.refusing)
      (fun _ _ => True) {} ls := by
    decide +kernel
  have hmore : GuardedRuns.Guards (step Crypto.xorStream Msgpack.refusing) (fun _ _ => True)
      (ls.foldl (step Crypto.xorStream Msgpack.refusing) {}) ls' := by
    decide +kernel
  refine ⟨_, _, reaches_foldl hguards, GuardedRuns.Run.foldl hmore, ?_, ?_, ?_, ?_, ?_, ?_, ?_⟩
  · decide +kernel
  · decide +kernel
  · decide +kernel
  · decide +kernel
  · decide +kernel
  · decide +kernel
  · decide +kernel

end Aloelite
