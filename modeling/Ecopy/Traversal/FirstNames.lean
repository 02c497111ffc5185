import Ecopy.Traversal.Origins

/-!
# First names

An object with further links is copied under the name it was first met under, and every other
name of it is sent to that one. The registry remembers the first name of each object; with a
log in which nothing fails it never forgets one.
-/
namespace Ecopy.Traversal
open Protocol (Bytes)
open Ecopy.Path Server HardLinks

/-- The registry sends further names of the object to `dst`. -/
def Leads (links : Registry) (id : Inode) (dst : Bytes) : Prop :=
  (links.find id).map Entry.primary = some dst

section Notes
variable {reg : Registry} {before : List Sighting} {mem : Memory} {c : Sighting}
  {result : NoteResult} {links : Registry} {id : Inode} {dst : Bytes}

theorem leads_iff (h : reg.Knows before) :
    Leads reg id dst ↔ (firstOf before id).map Sighting.dst = some dst := by
  rw [Leads, h.primaries]

theorem Leads.unique {dst' : Bytes} (h : Leads reg id dst) (h' : Leads reg id dst') : dst = dst' :=
  Option.some.inj (h.symm.trans h')

/-- What a call that does not fail does to the registry. -/
theorem noted_of_hardlinksNote (h : reg.Knows before)
    (hcall : hardlinksNote mem reg c.st c.dst = (result, links)) (hne : result ≠ .error) :
    HardLinks.Noted reg before c (result, links) := by
  have hdone : (hardlinksNote mem reg c.st c.dst).1 ≠ .error := by rwa [hcall]
  have henough := hardlinksNote_enough hdone
  have hspec := hardlinksNote_spec h c
  rwa [← henough, hcall] at hspec

/-- The first names stay. -/
theorem Leads.noted (hl : Leads reg id dst) (h : reg.Knows before)
    (hnoted : HardLinks.Noted reg before c (result, links)) : Leads links id dst := by
  rw [leads_iff h] at hl
  rw [leads_iff hnoted.2.2, firstOf_append]
  obtain ⟨first, hfirst, hdst⟩ := Option.map_eq_some_iff.mp hl
  rw [hfirst, Option.some_or, Option.map_some, hdst]

/-- A primary name is the first one. -/
theorem leads_of_primary (hnoted : HardLinks.Noted reg before c (.primary, links)) :
    Leads links c.inode c.dst ∧ links.jobs = reg.jobs := by
  obtain ⟨hresult, hjobs, hknows⟩ := hnoted
  have hnone : firstOf before c.inode = none := by
    rw [← Option.not_isSome_iff_eq_none, firstOf_isSome]
    intro hseen
    rw [resultAfter, if_pos hseen] at hresult
    cases hresult
  constructor
  · rw [leads_iff hknows, firstOf_append, hnone, if_pos rfl]
    rfl
  · rw [jobAfter, hnone] at hjobs
    exact hjobs.trans (List.append_nil _)

/-- A secondary name becomes a link to the first one. -/
theorem leads_of_secondary (hnoted : HardLinks.Noted reg before c (.secondary, links)) :
    ∃ primary, Leads links c.inode primary ∧
      links.jobs = reg.jobs ++ [⟨primary, c.dst, c.st.attr⟩] := by
  obtain ⟨hresult, hjobs, hknows⟩ := hnoted
  have hsome : (firstOf before c.inode).isSome := by
    rw [firstOf_isSome]
    by_contra hnot
    rw [resultAfter, if_neg hnot] at hresult
    cases hresult
  obtain ⟨first, hfirst⟩ := Option.isSome_iff_exists.mp hsome
  refine ⟨first.dst, ?_, ?_⟩
  · rw [leads_iff hknows, firstOf_append, hfirst]
    rfl
  · rw [jobAfter, hfirst] at hjobs
    exact hjobs

end Notes

section Scarce
variable {reg : Registry} {before : List Sighting}

/-- Calls one after the other, each with the memory that there is for it. -/
def noteEach : Registry → List (Memory × Sighting) → List NoteResult × Registry
  | reg, [] => ([], reg)
  | reg, c :: calls =>
    let out := hardlinksNote c.1 reg c.2.st c.2.dst
    let rest := noteEach out.2 calls
    (out.1 :: rest.1, rest.2)

/-- The calls that did not fail. -/
def kept (calls : List (Memory × Sighting)) (results : List NoteResult) : List Sighting :=
  ((calls.zip results).filter fun x => x.2 ≠ .error).map fun x => x.1.2

theorem kept_cons_error (c : Memory × Sighting) (calls : List (Memory × Sighting))
    (results : List NoteResult) : kept (c :: calls) (.error :: results) = kept calls results := by
  simp [kept]

theorem kept_cons {result : NoteResult} (h : result ≠ .error) (c : Memory × Sighting)
    (calls : List (Memory × Sighting)) (results : List NoteResult) :
    kept (c :: calls) (result :: results) = c.2 :: kept calls results := by
  simp [kept, h]

/-- The registry is as if the calls that failed had not been made. -/
structure Survives (before : List Sighting) (reg : Registry) (calls : List (Memory × Sighting))
    (out : List NoteResult × Registry) : Prop where
  knows : out.2.Knows (before ++ kept calls out.1)
  jobs : out.2.jobs = reg.jobs ++ jobsAfter before (kept calls out.1)
  results : ∀ i result, out.1[i]? = some result → result ≠ .error → ∃ c, calls[i]? = some c ∧
    result = resultAfter (before ++ kept (calls.take i) (out.1.take i)) c.2

theorem noteEach_survives (calls : List (Memory × Sighting)) (h : reg.Knows before) :
    Survives before reg calls (noteEach reg calls) := by
  induction calls generalizing reg before with
  | nil =>
    refine ⟨?_, (List.append_nil _).symm, fun i result hi => ?_⟩
    · rwa [show kept [] (noteEach reg []).1 = [] from rfl, List.append_nil]
    · cases hi
  | cons c calls ih =>
    rw [noteEach]
    cases hcall : hardlinksNote c.1 reg c.2.st c.2.dst with
    | mk result links =>
    dsimp only
    by_cases herror : result = .error
    · subst herror
      have hharmless : Harmless reg before (hardlinksNote c.1 reg c.2.st c.2.dst) :=
        hardlinksNote_harmless c.1 h c.2
      rw [hcall] at hharmless
      obtain ⟨hjobs, hknows⟩ := hharmless rfl
      obtain ⟨hall, hmade, hresults⟩ := ih hknows
      rw [hjobs] at hmade
      refine ⟨by rwa [kept_cons_error], by rwa [kept_cons_error], fun i result hi hne => ?_⟩
      cases i with
      | zero => exact absurd (Option.some.inj hi).symm hne
      | succ i =>
        obtain ⟨b, hb, heq⟩ := hresults i result hi hne
        refine ⟨b, hb, ?_⟩
        rwa [List.take_succ_cons, List.take_succ_cons, kept_cons_error]
    · obtain ⟨hresult, hjobs, hknows⟩ := noted_of_hardlinksNote h hcall herror
      obtain ⟨hall, hmade, hresults⟩ := ih hknows
      rw [List.append_assoc, List.singleton_append] at hall
      refine ⟨by rwa [kept_cons herror], ?_, fun i result' hi hne => ?_⟩
      · rw [kept_cons herror, jobsAfter, ← List.append_assoc, ← hjobs]
        exact hmade
      · cases i with
        | zero =>
          refine ⟨c, rfl, ?_⟩
          obtain rfl := Option.some.inj hi
          rw [List.take_zero, List.take_zero]
          change result = resultAfter (before ++ []) c.2
          rwa [List.append_nil]
        | succ i =>
          obtain ⟨b, hb, heq⟩ := hresults i result' hi hne
          refine ⟨b, hb, ?_⟩
          rw [List.append_assoc, List.singleton_append] at heq
          rwa [List.take_succ_cons, List.take_succ_cons, kept_cons herror]

/-- Whatever memory there is for each call: those that fail leave nothing behind, the others do
what they do without them. -/
theorem registry_survives (calls : List (Memory × Sighting)) :
    Survives [] .empty calls (noteEach .empty calls) :=
  noteEach_survives calls .empty

end Scarce

variable {o : Options} {r : Roots} {src : Source} {log : List DirWalk.Event} {s : Copy}
  {n : DirWalk.Node} {f : FileEntry}

/-- A file with further links has the name that its object was first met under. -/
def First (r : Roots) (links : Registry) (n : DirWalk.Node) (f : FileEntry) : Prop :=
  f.st.nlink > 1 → ∀ dst, entryDst r n f.name = some dst → Leads links f.st.inode dst

/-- The names that are copied are the first ones, and the others become links to those. -/
structure Registered (o : Options) (r : Roots) (src : Source) (log : List DirWalk.Event)
    (s : Copy) : Prop where
  carried : Carries (First r s.links) r s
  jobs : ∀ j ∈ s.links.jobs, ∃ n f, Came o src log n f ∧ entryDst r n f.name = some j.link ∧
    Leads s.links f.st.inode j.primary

theorem Registered.start (o : Options) (r : Roots) (src : Source) : Registered o r src [] .start :=
  ⟨.start _ r, fun _ h => (List.not_mem_nil h).elim⟩

theorem Registered.append {evs : List DirWalk.Event} (h : Registered o r src log s) :
    Registered o r src (log ++ evs) s where
  carried := h.carried
  jobs j hj := by
    obtain ⟨n, f, hcame, hrest⟩ := h.jobs j hj
    exact ⟨n, f, hcame.append, hrest⟩

/-- Callbacks that have nothing to do with files. -/
theorem Registered.same {t : Copy} (h : Registered o r src log s) (hlinks : t.links = s.links)
    (hbatch : t.batch = s.batch) (hfiles : t.files = s.files) : Registered o r src log t where
  carried := by
    rw [hlinks]
    exact h.carried.congr hbatch hfiles
  jobs := hlinks ▸ h.jobs

theorem Registered.flushFileBatch (h : Registered o r src log s) (n : DirWalk.Node) :
    Registered o r src log (flushFileBatch r s n) := by
  have hlinks := (flushFileBatch_beside r s n).links
  refine ⟨?_, hlinks ▸ h.jobs⟩
  rw [hlinks]
  exact h.carried.flushFileBatch n

theorem Registered.batchFile (h : Registered o r src log s) (hf : First r s.links n f) :
    Registered o r src log (batchFile r s n f) := by
  have hlinks := (batchFile_beside r s n f).links
  refine ⟨?_, hlinks ▸ h.jobs⟩
  rw [hlinks]
  exact h.carried.batchFile hf

/-- The registry has learned one name more. -/
theorem Registered.noted {before : List Sighting} {c : Sighting} {result : NoteResult}
    {links : Registry} (h : Registered o r src log s) (hknows : s.links.Knows before)
    (hnoted : HardLinks.Noted s.links before c (result, links))
    (hjobs : ∀ j ∈ links.jobs, j ∈ s.links.jobs ∨
      ∃ n f, Came o src log n f ∧ entryDst r n f.name = some j.link ∧
        Leads links f.st.inode j.primary) :
    Registered o r src log { s with links := links } where
  carried := (h.carried.mono fun _ _ hfirst hlinks dst hdst =>
    (hfirst hlinks dst hdst).noted hknows hnoted).congr rfl rfl
  jobs j hj := by
    rcases hjobs j hj with hj | hj
    · obtain ⟨n, f, hcame, hlink, hleads⟩ := h.jobs j hj
      exact ⟨n, f, hcame, hlink, hleads.noted hknows hnoted⟩
    · exact hj

theorem Registered.noteFile {mem : Memory} {dst : Bytes} (h : Registered o r src log s)
    (hlinked : Linked o r src s) (hf : Came o src log n f)
    (hdst : entryDst r n f.name = some dst) (hok : (noteFile mem r s n f dst).failed = false) :
    Registered o r src log (noteFile mem r s n f dst) := by
  obtain ⟨before, hknows, -⟩ := hlinked.firsts
  let c : Sighting := sightingOf f dst
  unfold Traversal.noteFile at hok ⊢
  cases hcall : hardlinksNote mem s.links ⟨f.st.dev, f.st.ino, f.st.attr⟩ dst with
  | mk result links =>
    rw [hcall] at hok
    cases result with
    | error =>
      have hfailed : true = false := (batchFile_spec r _ n f).1.sound hok
      exact Bool.noConfusion hfailed
    | secondary =>
      have hnoted := noted_of_hardlinksNote (c := c) hknows hcall
        fun h => NoteResult.noConfusion h
      obtain ⟨primary, hleads, hjobs⟩ := leads_of_secondary hnoted
      refine h.noted hknows hnoted fun j hj => ?_
      rw [hjobs, List.mem_append, List.mem_singleton] at hj
      refine hj.imp_right fun hj => ⟨n, f, hf, ?_⟩
      rw [hj]
      exact ⟨hdst, hleads⟩
    | primary =>
      have hnoted := noted_of_hardlinksNote (c := c) hknows hcall
        fun h => NoteResult.noConfusion h
      obtain ⟨hleads, hjobs⟩ := leads_of_primary hnoted
      have hrest : Registered o r src log { s with links := links } :=
        h.noted hknows hnoted fun j hj => .inl (hjobs ▸ hj)
      refine hrest.batchFile fun _ path hpath => ?_
      obtain rfl := Option.some.inj (hdst.symm.trans hpath)
      exact hleads

variable {mem : Bytes → Memory}

theorem Registered.walkEntry {name : Bytes} (h : Registered o r src log s)
    (hlinked : Linked o r src s) (hmet : Met log n name)
    (hok : (walkEntry o r src mem s n name).failed = false) :
    Registered o r src log (walkEntry o r src mem s n name) := by
  unfold Traversal.walkEntry at hok ⊢
  dsimp only at hok ⊢
  split at hok
  · rename_i hdir
    rw [if_pos hdir]
    exact h
  rename_i hdir
  rw [if_neg hdir]
  split at hok
  · rename_i hlnk
    rw [if_pos hlnk]
    unfold copySymlinkEntry
    dsimp only
    split
    · exact h.same rfl rfl rfl
    split
    · exact h.same rfl rfl rfl
    · exact h.same rfl rfl rfl
  rename_i hlnk
  rw [if_neg hlnk]
  split at hok
  · rename_i hother
    rw [if_pos hother]
    exact h
  rename_i hother
  rw [if_neg hother]
  split at hok
  · cases hok
  rename_i hlength
  rw [if_neg hlength]
  have hcame : Came o src log n ⟨name, o.override (src.lstat (childPath n.path name))⟩ :=
    ⟨hmet, rfl, by simpa using hother⟩
  split at hok
  · rename_i hlinks
    rw [if_pos hlinks]
    split at hok
    · cases hok
    · rename_i dst hdst
      exact h.noteFile hlinked hcame hdst hok
  · rename_i hlinks
    rw [if_neg hlinks]
    exact h.batchFile fun hmore => absurd hmore hlinks

theorem Registered.callback (h : Registered o r src log s) (hlinked : Linked o r src s)
    (ev : DirWalk.Event) (hok : (callback o r src mem s ev).failed = false) :
    Registered o r src (log ++ [ev]) (callback o r src mem s ev) := by
  have hs : Registered o r src (log ++ [ev]) s := h.append
  have hev : ev ∈ log ++ [ev] := List.mem_append_right _ List.mem_cons_self
  cases ev with
  | openFailed n => exact hs.same rfl rfl rfl
  | error path => exact hs.same rfl rfl rfl
  | begun n ok =>
    cases ok with
    | false => exact hs.same rfl rfl rfl
    | true =>
      change Registered o r src _ (walkDirBegin o r src s n)
      unfold walkDirBegin
      split
      · exact hs.same rfl rfl rfl
      · exact hs.same rfl rfl rfl
  | entry n e withStat descend child =>
    exact hs.walkEntry hlinked ⟨e, withStat, descend, child, hev, rfl⟩ hok
  | ended n ok =>
    cases ok with
    | false => exact (hs.same rfl rfl rfl : Registered o r src _ s.fail).flushFileBatch n
    | true => exact hs.flushFileBatch n

theorem registered_callbacks (hok : (callbacks o r src mem log).failed = false) :
    Registered o r src log (callbacks o r src mem log) := by
  induction log using List.reverseRecOn with
  | nil => exact .start o r src
  | append_singleton log ev ih =>
    unfold callbacks at *
    rw [List.foldl_append] at hok ⊢
    have hsound := callback_sound ev hok
    exact (ih hsound).callback (callbacks_known log hsound).linked ev hok

end Ecopy.Traversal
