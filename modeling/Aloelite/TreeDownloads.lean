import Aloelite.DownloadLoop

/-! What `get -r` writes and where: nothing outside, and everything whose names are safe. -/
namespace Aloelite

open Fallible KeyedRows

variable {C : Crypto} {M : Msgpack} {E : Env} {k : Cipher} {db : Db} {s : Sys} {mount : MountId}
  {ctx : MountCtx} {own : VolumeId → Cipher} {accepts : List LocalAct → LocalAct → Bool}
  {c n : NodeId} {t : NodeType} {chain : List String} {name : String} {g : Download}

variable {src : String}

/-- The loop so far did its part: all is as it should be and the queue holds entered containers. -/
structure OnCourse (s : Sys) (ctx : MountCtx) (c : NodeId) (queue : List (List Char × String))
    (g : Download) : Prop where
  faithful : Faithful s c g
  queued : ∀ item ∈ queue, Queued s ctx c g item

theorem OnCourse.turn {item : List Char × String} {queue : List (List Char × String)}
    (hd : Downloading C M E own s mount accepts ctx c) (h : OnCourse s ctx c (item :: queue) g) :
    OnCourse s ctx c (queue ++ (walkTurn C E (own ctx.volume) s.db mount accepts item g).2)
      (walkTurn C E (own ctx.volume) s.db mount accepts item g).1 ∧
        GrowsTo g (walkTurn C E (own ctx.volume) s.db mount accepts item g).1 := by
  obtain ⟨chain, p, hrel, hp, hentered, hlegible, hcur⟩ := h.queued item List.mem_cons_self
  obtain ⟨rel, cur⟩ := item
  obtain rfl : rel = relOf chain := hrel
  obtain ⟨hf, hgrows, hnew, -⟩ := walkTurn_handles hd h.faithful hp hentered hlegible hcur
  refine ⟨⟨hf, ?_⟩, hgrows⟩
  intro item hitem
  rcases List.mem_append.mp hitem with hitem | hitem
  · exact (h.queued item (List.mem_cons_of_mem _ hitem)).grows hgrows
  · exact hnew item hitem

theorem onCourse_start {src : String} (hlegible : Legible src)
    (hsrc : resolve s.db ctx.mountPoint src = .ok ⟨c, .container⟩) :
    OnCourse s ctx c [([], src)] { log := [.mkdir []] } := by
  have hroot : LocalAct.of s [] c .container = .mkdir [] := rfl
  have hsafe : SafeChain [] := fun name hname => by cases hname
  refine ⟨⟨rfl, ?_, ?_⟩, ?_⟩
  · intro act hact
    exact ⟨[], c, .container, Seen.root, hsafe, List.mem_singleton.mp hact⟩
  · intro rel hrel
    cases hrel
  · intro item hitem
    obtain rfl := List.mem_singleton.mp hitem
    refine ⟨[], c, rfl, Seen.root, ⟨?_, fun hun => absurd hsafe hun⟩, hlegible, hsrc⟩
    intro _
    rw [hroot]
    exact List.mem_singleton_self _

section

/-- The loop from its start. -/
def walked (C : Crypto) (E : Env) (k : Cipher) (db : Db) (mount : MountId)
    (accepts : List LocalAct → LocalAct → Bool) (src : String) (turns : ℕ) :
    List (List Char × String) × Download :=
  Worklist.sweep (walkTurn C E k db mount accepts) turns ([([], src)], { log := [.mkdir []] })

variable {src : String}

theorem onCourse_walked (hd : Downloading C M E own s mount accepts ctx c) (hlegible : Legible src)
    (hsrc : resolve s.db ctx.mountPoint src = .ok ⟨c, .container⟩) (turns : ℕ) :
    OnCourse s ctx c (walked C E (own ctx.volume) s.db mount accepts src turns).1
      (walked C E (own ctx.volume) s.db mount accepts src turns).2 :=
  Worklist.sweep_invariant (fun _ _ _ h => (OnCourse.turn hd h).1) turns
    (onCourse_start hlegible hsrc)

/-- What was done stays done. -/
theorem walked_grows (hd : Downloading C M E own s mount accepts ctx c) (hlegible : Legible src)
    (hsrc : resolve s.db ctx.mountPoint src = .ok ⟨c, .container⟩) (turns more : ℕ) :
    GrowsTo (walked C E (own ctx.volume) s.db mount accepts src turns).2
      (walked C E (own ctx.volume) s.db mount accepts src (turns + more)).2 := by
  have hstart := onCourse_walked hd hlegible hsrc turns
  rw [walked, walked, Worklist.sweep_add]
  rw [walked] at hstart
  generalize Worklist.sweep (walkTurn C E (own ctx.volume) s.db mount accepts) turns
    ([([], src)], { log := [.mkdir []] }) = p at hstart ⊢
  have hboth : ∀ item queue g, OnCourse s ctx c (item :: queue) g ∧ GrowsTo p.2 g →
      OnCourse s ctx c (queue ++ (walkTurn C E (own ctx.volume) s.db mount accepts item g).2)
        (walkTurn C E (own ctx.volume) s.db mount accepts item g).1 ∧
          GrowsTo p.2 (walkTurn C E (own ctx.volume) s.db mount accepts item g).1 := by
    intro item queue g h
    obtain ⟨hon, hgrows⟩ := OnCourse.turn hd h.1
    exact ⟨hon, h.2.trans hgrows⟩
  exact (Worklist.sweep_invariant (P := fun queue g => OnCourse s ctx c queue g ∧ GrowsTo p.2 g)
    hboth more
    ⟨hstart, GrowsTo.refl p.2⟩).2

/-- Whatever is there is taken care of, and a container comes into the queue. -/
theorem walked_handles (hd : Downloading C M E own s mount accepts ctx c) (hlegible : Legible src)
    (hsrc : resolve s.db ctx.mountPoint src = .ok ⟨c, .container⟩) (h : Seen s.db c chain n t) :
    ∃ turns, Handled s (walked C E (own ctx.volume) s.db mount accepts src turns).2 chain n t ∧
      (t = .container →
        ∃ path, (relOf chain, path) ∈ (walked C E
          (own ctx.volume) s.db mount accepts src turns).1) := by
  induction h with
  | root =>
    obtain ⟨chain, p, hrel, hp, hhandled, -⟩ :=
      (onCourse_start hlegible hsrc).queued _ (List.mem_singleton_self _)
    have hnil : chain = [] := by
      by_contra hne
      exact relOf_ne_nil (hp.segments hd.meets) hne hrel.symm
    subst hnil
    obtain ⟨rfl, -⟩ := hp.functional Seen.root
    exact ⟨0, hhandled, fun _ => ⟨src, List.mem_singleton_self _⟩⟩
  | @child chain p r hp hr hvisible ih =>
    obtain ⟨turns, -, hqueued⟩ := ih
    obtain ⟨path, hpath⟩ := hqueued rfl
    -- the container comes to the head of the queue, under the chain it was queued with
    obtain ⟨turns', queue, g, hhead, hnext⟩ := Worklist.sweep_visits rfl hpath
    have hon := onCourse_walked hd hlegible hsrc turns'
    rw [walked, hhead] at hon
    obtain ⟨chain', p', hrel, hp', hentered, hwhole, hcur⟩ := hon.queued _ List.mem_cons_self
    obtain rfl := relOf_injective (hp.segments hd.meets) (hp'.segments hd.meets) hrel
    obtain ⟨rfl, -⟩ := hp.functional hp'
    obtain ⟨-, -, -, hchildren⟩ := walkTurn_handles hd hon.faithful hp hentered hwhole hcur
    obtain ⟨hhandled, hdir⟩ := hchildren r hr hvisible
    refine ⟨turns' + 1, ?_, ?_⟩
    · rw [walked, hnext]
      exact hhandled
    · intro ht
      obtain ⟨path', hpath'⟩ := hdir ht
      refine ⟨path', ?_⟩
      rw [walked, hnext]
      exact List.mem_append_right _ hpath'

end

/-- Names a path can hold are all the walk meets in a run that gives no others. -/
theorem Db.Listable.meetsSegments (hl : db.Listable) (c : NodeId) : MeetsSegments db c := by
  intro chain p _ r hr _
  exact (Listable.agrees hl p).named r hr

variable (C M own accepts) in
/-- Below a container whose visible names are all whole, `get -r` makes nothing but at paths
of safe names; and in a careful run, on a local directory that takes what fits it, every
visible node with a safe chain of names is made in its place with its bytes, once and for all. -/
theorem getTree_contained_and_complete {src : String}
    (hm : requireMount E (own ctx.volume) s.db mount false = .ok ctx) (hlegible : Legible src)
    (hsrc : resolve s.db ctx.mountPoint src = .ok ⟨c, .container⟩) (hmeets : MeetsSegments s.db c) :
    (∀ turns queue g, getTree C E (own ctx.volume) s.db mount accepts src turns = .ok (queue, g) →
      SafeLog g) ∧
    (Reaches C M (Careful C M own) s → TakesMeant s c accepts →
      ∀ chain n t, Seen s.db c chain n t → SafeChain chain → ∃ turns, ∀ more, ∃ queue g,
        getTree C E (own ctx.volume) s.db mount accepts src (turns + more) = .ok (queue, g) ∧
          LocalAct.of s chain n t ∈ g.log ∧
          ∀ act ∈ g.log, act.path = chain.map String.toList → act = LocalAct.of s chain n t) := by
  refine ⟨fun turns queue g h => getTree_inside hm hlegible hsrc hmeets h, ?_⟩
  intro h hos chain n t hseen hsafe
  have hd : Downloading C M E own s mount accepts ctx c := ⟨h, hm, hmeets, hos⟩
  have hroot : accepts [] (.mkdir []) = true := by
    have hsafe : SafeChain [] := fun name hname => by cases hname
    have hmeant : Meant s c (.mkdir []) := ⟨[], c, .container, Seen.root, hsafe, rfl⟩
    apply hos [] _ (fun done hdone => by cases hdone) hmeant
    intro q data hq
    cases hq
  -- the command only starts the walk: the source is a container and the root is made
  have hgo : ∀ turns, getTree C E (own ctx.volume) s.db mount accepts src turns =
      .ok (walked C E (own ctx.volume) s.db mount accepts src turns) := by
    intro turns
    obtain ⟨st, hrow, htype⟩ := Option.map_eq_some_iff.mp (resolve_nodeType hsrc)
    have hst : stat E (own ctx.volume) s.db mount src = .ok st := by
      rw [stat, hm, ok_bind, hsrc, ok_bind, statById, hm, ok_bind, hrow]
      rfl
    rw [getTree, hst]
    simp only [htype, hroot, ne_eq, not_true_eq_false, if_false, if_true]
    rfl
  -- the queue comes to every seen node in the end, and later turns take nothing back
  obtain ⟨turns, hhandled, -⟩ := walked_handles hd hlegible hsrc hseen
  refine ⟨turns, ?_⟩
  intro more
  refine ⟨_, _, hgo (turns + more),
    (walked_grows hd hlegible hsrc turns more).log (hhandled.made hsafe), ?_⟩
  intro act hact hpath
  obtain ⟨chain', n', t', hseen', -, rfl⟩ :=
    (onCourse_walked hd hlegible hsrc (turns + more)).faithful.acts act hact
  rw [LocalAct.of_path] at hpath
  obtain rfl := map_toList_injective hpath
  obtain ⟨rfl, rfl⟩ := hseen.functional hseen'
  rfl

/-- A container with a file in it, and another that was given the name of the parent directory. -/
def dottedRun : List Label :=
  [⟨.counting 0, 0, .createVolume none 128 none .none⟩,
    ⟨.counting 1, 0, .mount { volume := 0 }⟩,
    ⟨.counting 2, 0, .request 1 (.createContainer "e")⟩,
    ⟨.counting 4, 0, .request 1 (.createEntry "e/y" [9])⟩,
    ⟨.counting 6, 0, .request 1 (.createContainer "d")⟩,
    ⟨.counting 8, 0, .request 1 (.createEntry "d/x" [7, 8])⟩,
    ⟨.counting 10, 0, .request 1 (.rename "e" "..")⟩]

theorem getTree_contained_and_complete_dotted :
    let s := dottedRun.foldl (step Crypto.xorStream Msgpack.refusing) {}
    ∃ turns, ∀ more, ∃ queue g,
      getTree Crypto.xorStream (.counting 20) .identity s.db 1 freshDirectory "/" (turns + more) =
      .ok (queue, g) ∧
        SafeLog g ∧ LocalAct.write [['d'], ['x']] [7, 8] ∈ g.log := by
  intro s
  have hcareful : GuardedRuns.Guards (step Crypto.xorStream Msgpack.refusing)
      (Careful Crypto.xorStream Msgpack.refusing (fun _ => .identity)) {} dottedRun := by
    decide +kernel
  have hapart : GuardedRuns.Guards (step Crypto.xorStream Msgpack.refusing)
      (NamesApart Crypto.xorStream Msgpack.refusing) {} dottedRun := by
    decide +kernel
  have hl : s.db.Listable := (reaches_foldl hapart).listable
  have hm : requireMount (.counting 20) .identity s.db 1 false = .ok ⟨1, 0, 0, .none⟩ := by
    decide +kernel
  have hsrc : resolve s.db 0 "/" = .ok ⟨0, .container⟩ := by decide +kernel
  have hd : (⟨6, "d", .container, 7, true⟩ : ListedRow) ∈ s.db.listChildren 0 := by decide +kernel
  have hx : (⟨8, "x", .entry, 9, true⟩ : ListedRow) ∈ s.db.listChildren 6 := by decide +kernel
  have hseen : Seen s.db 0 ["d", "x"] 8 .entry := Seen.child (Seen.child Seen.root hd rfl) hx rfl
  have hsafe : SafeChain ["d", "x"] := by
    intro name hname
    rcases List.mem_pair.mp hname with rfl | rfl
    · decide
    · decide
  obtain ⟨hinside, hcomplete⟩ :=
    getTree_contained_and_complete Crypto.xorStream Msgpack.refusing
      (fun _ => .identity) freshDirectory hm (by decide) hsrc (hl.meetsSegments 0)
  obtain ⟨turns, hmade⟩ :=
    hcomplete (reaches_foldl hcareful) (fun _ _ _ _ => freshDirectory_iff.mpr) _ _ _ hseen hsafe
  refine ⟨turns, ?_⟩
  intro more
  obtain ⟨queue, g, hgot, hact, -⟩ := hmade more
  have hbytes : LocalAct.of s ["d", "x"] 8 .entry = .write [['d'], ['x']] [7, 8] := by
    decide +kernel
  rw [hbytes] at hact
  exact ⟨queue, g, hgot, hinside _ queue g hgot, hact⟩

/-- A container named with a separator: a directory beside the destination is made, the walk
ends at it, and the file in the other container stays behind. -/
theorem getTree_escapes :
    ∃ s g, Reaches Crypto.xorStream Msgpack.refusing (fun _ _ => True) s ∧
      getTree Crypto.xorStream (.counting 20) .identity s.db 1 freshDirectory "/" 3 = .ok ([], g) ∧
      LocalAct.mkdir [['.', '.'], ['e', 'v', 'i', 'l']] ∈ g.log ∧ ¬ SafeLog g ∧
      Seen s.db 0 ["d", "x"] 8 .entry ∧ SafeChain ["d", "x"] ∧ ∀ act ∈ g.log, act.path ≠
        [['d'], ['x']] := by
  let ls : List Label :=
    [⟨.counting 0, 0, .createVolume none 128 none .none⟩,
      ⟨.counting 1, 0, .mount { volume := 0 }⟩,
      ⟨.counting 2, 0, .request 1 (.createContainer "e")⟩,
      ⟨.counting 6, 0, .request 1 (.createContainer "d")⟩,
      ⟨.counting 8, 0, .request 1 (.createEntry "d/x" [7, 8])⟩,
      ⟨.counting 10, 0, .request 1 (.rename "e" "../evil")⟩]
  let g : Download :=
    { log := [.mkdir [], .mkdir [['.', '.'], ['e', 'v', 'i', 'l']], .mkdir [['d']]], dirs := 2,
      stopped := some (.engine .notFound) }
  have hguards : GuardedRuns.Guards (step Crypto.xorStream Msgpack.refusing)
      (fun _ _ => True) {} ls := by
    simp [GuardedRuns.Guards, ls]
  have hmade : LocalAct.mkdir [['.', '.'], ['e', 'v', 'i', 'l']] ∈ g.log := by decide
  refine ⟨ls.foldl (step Crypto.xorStream Msgpack.refusing) {}, g, reaches_foldl hguards,
    by decide +kernel, hmade, ?_, ?_, ?_, by decide⟩
  · intro hsafe
    exact absurd (hsafe _ hmade ['.', '.'] List.mem_cons_self) (by decide)
  · have hd : (⟨6, "d", .container, 7, true⟩ : ListedRow) ∈
        (ls.foldl (step Crypto.xorStream Msgpack.refusing) {}).db.listChildren 0 := by
      decide +kernel
    have hx : (⟨8, "x", .entry, 9, true⟩ : ListedRow) ∈
        (ls.foldl (step Crypto.xorStream Msgpack.refusing) {}).db.listChildren 6 := by
      decide +kernel
    exact Seen.child (Seen.child Seen.root hd rfl) hx rfl
  · intro name hname
    rcases List.mem_pair.mp hname with rfl | rfl
    · decide
    · decide

end Aloelite
