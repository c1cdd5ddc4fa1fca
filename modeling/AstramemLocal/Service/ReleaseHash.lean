/-
What a release's content hash says about its files (`computeContentHash` of `src/service/release.ts`). The hash runs over
path, NUL, bytes, NUL for each file in the order of the paths, so two sets of files have one input exactly when, cut at
every NUL, they are the same pieces (`hashInput_eq_iff`). The pieces tell the files apart unless a NUL stands in a file's
own bytes.
- `content_identity_iff`: one id is that of one set of files exactly when the two are not regroupings of each other, and
  then the release under the id serves what was built;
- `not_regrouped_of_nul_free`: files without a NUL are never regrouped;
- `materialized_served`: after any run, a materialization leaves the files it built under its id, or a regrouping of them;
- `stale_release_kept`: two migrations and the one file that holds both have one id.
-/
import AstramemLocal.Core.Lines
import AstramemLocal.Service.Release

namespace AstramemLocal.Service

open AstramemLocal.Core

/-! ## Paths -/

/-- what passes from the entries of a directory to the directory holds of every entry -/
@[elab_as_elim]
theorem Entry.ind {motive : Entry → Prop} (file : ∀ bytes, motive (.file bytes))
    (directory : ∀ entries, (∀ e ∈ entries, motive e.2) → motive (.directory entries)) (other : motive .other)
    (entry : Entry) : motive entry := by
  refine @Entry.rec motive (fun entries => ∀ e ∈ entries, motive e.2) (fun e => motive e.2) file directory other ?_ ?_ ?_
    entry
  · simp
  · intro e entries he hentries f hf
    rcases List.mem_cons.1 hf with rfl | hf
    · exact he
    · exact hentries f hf
  · intro name entry hentry
    exact hentry

theorem walkEntries_eq (rel : String) (entries : List (FileName × Entry)) :
    walkEntries rel entries = entries.flatMap fun e => walk (rel ++ "/" ++ e.1.text) e.2 := by
  induction entries with
  | nil => rfl
  | cons e entries ih => rw [walkEntries, ih, List.flatMap_cons]

/-- nothing, or a `/` and more -/
def Tail (tail : List Char) : Prop := ∀ c ∈ tail.head?, c = '/'

theorem toList_join (rel : String) (name : FileName) :
    (rel ++ "/" ++ name.text).toList = rel.toList ++ '/' :: name.text.toList := by
  simp

theorem walk_path {rel : String} {entry : Entry} {f : ReleaseFile} (h : f ∈ walk rel entry) :
    ∃ tail, f.path.toList = rel.toList ++ tail ∧ Tail tail := by
  induction entry using Entry.ind generalizing rel with
  | file bytes =>
    obtain rfl := List.mem_singleton.1 h
    exact ⟨[], (List.append_nil _).symm, by simp [Tail]⟩
  | directory entries ih =>
    rw [walk, walkEntries_eq] at h
    obtain ⟨e, he, hf⟩ := List.mem_flatMap.1 h
    obtain ⟨tail, hpath, _⟩ := ih e he hf
    rw [toList_join, List.append_assoc] at hpath
    exact ⟨_, hpath, by simp [Tail]⟩
  | other => cases h

theorem walk_plain {rel : String} {entry : Entry} {f : ReleaseFile} (hrel : '\x00' ∉ rel.toList) (h : f ∈ walk rel entry) :
    '\x00' ∉ f.path.toList := by
  induction entry using Entry.ind generalizing rel with
  | file bytes =>
    obtain rfl := List.mem_singleton.1 h
    exact hrel
  | directory entries ih =>
    rw [walk, walkEntries_eq] at h
    obtain ⟨e, he, hf⟩ := List.mem_flatMap.1 h
    apply ih e he _ hf
    rw [toList_join]
    simp [hrel, e.1.plain.2.2]
  | other => cases h

/-- a name ends where the tail begins -/
theorem takeWhile_name (name : FileName) {tail : List Char} (htail : Tail tail) :
    (name.text.toList ++ tail).takeWhile (· ≠ '/') = name.text.toList := by
  have hname : ∀ c ∈ name.text.toList, (decide (c ≠ '/')) = true := by
    intro c hc
    simpa using fun heq : c = '/' => name.plain.2.1 (heq ▸ hc)
  rw [List.takeWhile_append_of_pos hname]
  cases tail with
  | nil => simp
  | cons c tail =>
    obtain rfl := htail c rfl
    simp

theorem name_of_path {rel : String} {a b : FileName} {s t : List Char} (hs : Tail s) (ht : Tail t)
    (h : (rel ++ "/" ++ a.text).toList ++ s = (rel ++ "/" ++ b.text).toList ++ t) : a = b := by
  rw [toList_join, toList_join, List.append_assoc, List.append_assoc, List.append_cancel_left_eq, List.cons_append,
    List.cons_append, List.cons.injEq] at h
  have hname := congrArg (List.takeWhile (· ≠ '/')) h.2
  rw [takeWhile_name a hs, takeWhile_name b ht, String.toList_inj] at hname
  cases a
  cases b
  cases hname
  rfl

theorem walk_nodup {rel : String} {entry : Entry} (h : entry.Distinct) : ((walk rel entry).map (·.path)).Nodup := by
  induction entry using Entry.ind generalizing rel with
  | file bytes => exact List.nodup_singleton _
  | directory entries ih =>
    cases h with
    | directory hkeyed hentries =>
      rw [walk, walkEntries_eq, List.map_flatMap, List.nodup_flatMap]
      refine ⟨fun e he => ih e he (hentries e he), ?_⟩
      unfold Keyed at hkeyed
      rw [List.Nodup, List.pairwise_map] at hkeyed
      apply hkeyed.imp
      intro a b hab path ha hb
      obtain ⟨f, hf, rfl⟩ := List.mem_map.1 ha
      obtain ⟨g, hg, hpath⟩ := List.mem_map.1 hb
      obtain ⟨s, hfs, hs⟩ := walk_path hf
      obtain ⟨t, hgt, ht⟩ := walk_path hg
      exact hab (name_of_path hs ht (hfs.symm.trans ((congrArg String.toList hpath.symm).trans hgt)))
  | other => exact List.nodup_nil

/-! ## The files that are hashed -/

variable {dir : Directory} {lockfileName top name : FileName} {files : List ReleaseFile} {f g : ReleaseFile}

theorem find_distinct {entry : Entry} (h : dir.find name = some entry) : entry.Distinct := by
  obtain ⟨e, he, rfl⟩ := Option.map_eq_some_iff.1 h
  cases dir.distinct with
  | directory _ hentries => exact hentries e (lookup_mem he).1

theorem walkTop_cases (h : walkTop dir top = some files) :
    files = [] ∨ ∃ entries, (Entry.directory entries).Distinct ∧ files = walk top.text (.directory entries) := by
  unfold walkTop at h
  split at h
  · exact .inl (Option.some.inj h).symm
  next entries hfind => exact .inr ⟨entries, find_distinct hfind, (Option.some.inj h).symm⟩
  · cases h

theorem walkTop_nodup (h : walkTop dir top = some files) : (files.map (·.path)).Nodup := by
  rcases walkTop_cases h with rfl | ⟨entries, hdistinct, rfl⟩
  · exact List.nodup_nil
  · exact walk_nodup hdistinct

theorem walkTop_plain (h : walkTop dir top = some files) (hf : f ∈ files) : '\x00' ∉ f.path.toList := by
  rcases walkTop_cases h with rfl | ⟨entries, _, rfl⟩
  · cases hf
  · exact walk_plain top.plain.2.2 hf

theorem walkTop_path (h : walkTop dir top = some files) (hf : f ∈ files) :
    ∃ rest, f.path.toList = top.text.toList ++ '/' :: rest := by
  rcases walkTop_cases h with rfl | ⟨entries, _, rfl⟩
  · cases hf
  · rw [walk, walkEntries_eq] at hf
    obtain ⟨e, _, hf⟩ := List.mem_flatMap.1 hf
    obtain ⟨tail, hpath, _⟩ := walk_path hf
    rw [toList_join, List.append_assoc] at hpath
    exact ⟨_, hpath⟩

theorem readTop_path (h : readTop dir name = some f) : f.path = name.text := by
  unfold readTop at h
  split at h
  · exact Option.some.inj h ▸ rfl
  · cases h

/-- the files of `dist/` and `migrations/`, and the two beside them -/
structure Hashed (dir : Directory) (lockfileName : FileName) (files : List ReleaseFile) where
  dist : List ReleaseFile
  migrations : List ReleaseFile
  package : ReleaseFile
  hdist : walkTop dir distName = some dist
  hmigrations : walkTop dir migrationsName = some migrations
  hpackage : readTop dir packageName = some package
  hfiles : files = dist ++ migrations ++ package :: (readTop dir lockfileName).toList

theorem hashedFiles_parts (h : hashedFiles dir lockfileName = some files) : Nonempty (Hashed dir lockfileName files) := by
  unfold hashedFiles at h
  obtain ⟨dist, hdist, h⟩ := Option.bind_eq_some_iff.1 h
  obtain ⟨migrations, hmigrations, h⟩ := Option.bind_eq_some_iff.1 h
  obtain ⟨package, hpackage, h⟩ := Option.bind_eq_some_iff.1 h
  refine ⟨⟨dist, migrations, package, hdist, hmigrations, hpackage, ?_⟩⟩
  split at h
  · obtain ⟨lockfile, hlockfile, h⟩ := Option.bind_eq_some_iff.1 h
    rw [hlockfile]
    exact (Option.some.inj h).symm
  next hnone =>
    have hlockfile : readTop dir lockfileName = none := by
      unfold readTop
      rw [Option.not_isSome_iff_eq_none.1 hnone]
    rw [hlockfile]
    exact (Option.some.inj h).symm

namespace Hashed

variable (H : Hashed dir lockfileName files)

def walked : List ReleaseFile := H.dist ++ H.migrations

def tops : List ReleaseFile := H.package :: (readTop dir lockfileName).toList

theorem files_eq : files = H.walked ++ H.tops := H.hfiles

theorem walked_path (hf : f ∈ H.walked) : '/' ∈ f.path.toList := by
  rcases List.mem_append.1 hf with hf | hf
  · obtain ⟨rest, hpath⟩ := walkTop_path H.hdist hf
    simp [hpath]
  · obtain ⟨rest, hpath⟩ := walkTop_path H.hmigrations hf
    simp [hpath]

theorem walked_nodup : (H.walked.map (·.path)).Nodup := by
  rw [walked, List.map_append, List.nodup_append]
  refine ⟨walkTop_nodup H.hdist, walkTop_nodup H.hmigrations, ?_⟩
  intro a ha b hb
  obtain ⟨f, hf, rfl⟩ := List.mem_map.1 ha
  obtain ⟨g, hg, rfl⟩ := List.mem_map.1 hb
  obtain ⟨s, hfs⟩ := walkTop_path H.hdist hf
  obtain ⟨t, hgt⟩ := walkTop_path H.hmigrations hg
  intro heq
  rw [heq, hgt] at hfs
  have hhead := congrArg List.head? hfs
  revert hhead
  simp [distName, migrationsName]

theorem mem_tops : f ∈ H.tops ↔ readTop dir packageName = some f ∨ readTop dir lockfileName = some f := by
  rw [tops, List.mem_cons, Option.mem_toList, H.hpackage, Option.some.injEq, eq_comm]

theorem tops_path (hf : f ∈ H.tops) : '/' ∉ f.path.toList ∧ '\x00' ∉ f.path.toList := by
  rcases H.mem_tops.1 hf with h | h
  · rw [readTop_path h]
    exact packageName.plain.2
  · rw [readTop_path h]
    exact lockfileName.plain.2

include H in
/-- the files beside the trees are the ones without a `/` -/
theorem top_of_path (hf : f ∈ files) (hname : f.path = name.text) : readTop dir name = some f := by
  have htext : ∀ {other : FileName}, f.path = other.text → other = name := by
    intro other hother
    cases other
    cases name
    cases hother.symm.trans hname
    rfl
  rw [H.files_eq] at hf
  rcases List.mem_append.1 hf with hf | hf
  · exact absurd (hname ▸ H.walked_path hf) name.plain.2.1
  · rcases H.mem_tops.1 hf with h | h
    · exact htext (readTop_path h) ▸ h
    · exact htext (readTop_path h) ▸ h

include H in
theorem plain (hf : f ∈ files) : '\x00' ∉ f.path.toList := by
  rw [H.files_eq] at hf
  rcases List.mem_append.1 hf with hf | hf
  · rcases List.mem_append.1 hf with hf | hf
    · exact walkTop_plain H.hdist hf
    · exact walkTop_plain H.hmigrations hf
  · exact (H.tops_path hf).2

include H in
/-- a path is that of one file -/
theorem path_inj (hf : f ∈ files) (hg : g ∈ files) (h : f.path = g.path) : f = g := by
  have hwhere := hg
  rw [H.files_eq] at hwhere
  rcases List.mem_append.1 hwhere with hwalked | htop
  · rw [H.files_eq] at hf
    rcases List.mem_append.1 hf with hf | hf
    · exact List.inj_on_of_nodup_map H.walked_nodup hf hwalked h
    · exact absurd (h ▸ H.walked_path hwalked) (H.tops_path hf).1
  · rcases H.mem_tops.1 htop with hread | hread
    · exact Option.some.inj ((H.top_of_path hf (h.trans (readTop_path hread))).symm.trans hread)
    · exact Option.some.inj ((H.top_of_path hf (h.trans (readTop_path hread))).symm.trans hread)

end Hashed

section
variable {A B : Directory} {as bs : List ReleaseFile} (HA : Hashed A lockfileName as) (HB : Hashed B lockfileName bs)
  (hsame : ∀ f, f ∈ as ↔ f ∈ bs)
include HA HB hsame

theorem same_readTop (hname : name = packageName ∨ name = lockfileName) : readTop A name = readTop B name := by
  ext f
  constructor
  · intro h
    refine HB.top_of_path ((hsame f).1 ?_) (readTop_path h)
    rw [HA.files_eq, List.mem_append, HA.mem_tops]
    rcases hname with rfl | rfl
    · exact .inr (.inl h)
    · exact .inr (.inr h)
  · intro h
    refine HA.top_of_path ((hsame f).2 ?_) (readTop_path h)
    rw [HB.files_eq, List.mem_append, HB.mem_tops]
    rcases hname with rfl | rfl
    · exact .inr (.inl h)
    · exact .inr (.inr h)

theorem same_perm : as.Perm bs := by
  have htops : HA.tops = HB.tops := by
    have hpackage := same_readTop HA HB hsame (.inl rfl)
    rw [HA.hpackage, HB.hpackage, Option.some.injEq] at hpackage
    rw [Hashed.tops, Hashed.tops, hpackage, same_readTop HA HB hsame (.inr rfl)]
  have hwalked : HA.walked.Perm HB.walked := by
    rw [List.perm_ext_iff_of_nodup HA.walked_nodup.of_map HB.walked_nodup.of_map]
    intro f
    have hmem := hsame f
    rw [HA.files_eq, HB.files_eq, htops, List.mem_append, List.mem_append] at hmem
    constructor
    · intro hf
      exact (hmem.1 (.inl hf)).resolve_right fun htop => (HB.tops_path htop).1 (HA.walked_path hf)
    · intro hf
      exact (hmem.2 (.inl hf)).resolve_right fun htop => (HB.tops_path htop).1 (HB.walked_path hf)
  rw [HA.files_eq, HB.files_eq, htops]
  exact hwalked.append_right _

/-- the order of the paths is that of the set of files -/
theorem same_sorted : as.insertionSort pathLe = bs.insertionSort pathLe := by
  have hperm : (as.insertionSort pathLe).Perm (bs.insertionSort pathLe) :=
    (List.perm_insertionSort _ as).trans ((same_perm HA HB hsame).trans (List.perm_insertionSort _ bs).symm)
  refine List.Perm.eq_of_pairwise ?_ (List.pairwise_insertionSort pathLe as) (List.pairwise_insertionSort pathLe bs) hperm
  intro f g hf hg hfg hgf
  rw [List.mem_insertionSort] at hf hg
  exact HA.path_inj hf ((hsame g).2 hg) (codeUnits_injective (le_antisymm hfg hgf))

end

/-! ## The input of the hash -/

/-- a file's path, and its bytes cut at every NUL -/
def pieces (f : ReleaseFile) : List Bytes := utf8 f.path :: f.bytes.splitOn 0

def nulCount (f : ReleaseFile) : ℕ := f.bytes.count 0

theorem fed_eq (f : ReleaseFile) : fed f = opening 0 (pieces f) := by
  rw [pieces, opening_cons, opening_splitOn]
  simp [fed]

theorem flatMap_fed (files : List ReleaseFile) : files.flatMap fed = opening 0 (files.flatMap pieces) := by
  induction files with
  | nil => rfl
  | cons f files ih =>
    rw [List.flatMap_cons, List.flatMap_cons, ih, fed_eq, opening, opening, opening, List.flatMap_append]

theorem pieces_plain (hpath : '\x00' ∉ f.path.toList) : ∀ part ∈ pieces f, 0 ∉ part := by
  intro part hpart
  rcases List.mem_cons.1 hpart with rfl | hpart
  · exact zero_notMem_utf8 hpath
  · exact notMem_of_mem_splitOn 0 hpart

theorem pieces_injective : Function.Injective pieces := by
  intro f g h
  obtain ⟨hpath, hbytes⟩ := List.cons.inj h
  have hjoin := congrArg (List.intercalate [0]) hbytes
  rw [List.intercalate_splitOn, List.intercalate_splitOn] at hjoin
  cases f
  cases g
  cases utf8_injective hpath
  cases hjoin
  rfl

theorem length_pieces (f : ReleaseFile) : (pieces f).length = nulCount f + 2 := by
  rw [pieces, List.length_cons, length_splitOn, nulCount]

/-- **What the input tells.** Two sets of files have one input exactly when their pieces are the same. -/
theorem hashInput_eq_iff {as bs : List ReleaseFile} (has : ∀ f ∈ as, '\x00' ∉ f.path.toList)
    (hbs : ∀ f ∈ bs, '\x00' ∉ f.path.toList) :
    hashInput as = hashInput bs ↔
      (as.insertionSort pathLe).flatMap pieces = (bs.insertionSort pathLe).flatMap pieces := by
  have hplain : ∀ {fs : List ReleaseFile}, (∀ f ∈ fs, '\x00' ∉ f.path.toList) →
      ∀ part ∈ (fs.insertionSort pathLe).flatMap pieces, 0 ∉ part := by
    intro fs hfs part hpart
    obtain ⟨f, hf, hpart⟩ := List.mem_flatMap.1 hpart
    exact pieces_plain (hfs f ((List.mem_insertionSort _).1 hf)) part hpart
  rw [hashInput, hashInput, flatMap_fed, flatMap_fed]
  exact ⟨opening_injective 0 (hplain has) (hplain hbs), congrArg _⟩

/-- the pieces and the numbers of NULs in the files give the files -/
theorem files_of_pieces {as bs : List ReleaseFile} (hpieces : as.flatMap pieces = bs.flatMap pieces)
    (hcounts : as.map nulCount = bs.map nulCount) : as = bs := by
  apply List.map_injective_iff.2 pieces_injective
  rw [List.eq_iff_flatten_eq]
  refine ⟨hpieces, ?_⟩
  have hlengths : ∀ fs : List ReleaseFile, (fs.map pieces).map List.length = (fs.map nulCount).map (· + 2) := by
    intro fs
    rw [List.map_map, List.map_map]
    exact List.map_congr_left fun f _ => length_pieces f
  rw [hlengths, hlengths, hcounts]

/-! ## Promoting -/

variable {sha256 : Bytes → String} {E : Env} {built A B : Directory} {manifest : ReleaseManifest} {contentHash : String}
  {root : List Release}

/-- the hash a manifest records is that of the files beside it -/
def Genuine (sha256 : Bytes → String) (lockfileName : FileName) (r : Release) : Prop :=
  ∀ m, r.manifest = some m → ∀ h, m.contentHash = some h → computeContentHash sha256 r.files lockfileName = some h

/-- what `promote` does: the release that stands there records the hash and is kept, or the new directory is put there -/
theorem promote_cases (E : Env) (built : Directory) (manifest : ReleaseManifest) (contentHash : String) (root : List Release) :
    (∃ existing kept, lookup Release.id manifest.id root = some existing ∧ existing.manifest = some kept ∧
      kept.contentHash = some contentHash ∧ promote E built manifest contentHash root = (⟨kept, .reused⟩, root)) ∨
    ∃ outcome after, outcome ≠ .reused ∧ promote E built manifest contentHash root = (⟨manifest, outcome⟩, after) ∧
      lookup Release.id manifest.id after = some ⟨manifest.id, built, some manifest⟩ ∧
      ∀ r ∈ after, r = ⟨manifest.id, built, some manifest⟩ ∨ r ∈ root := by
  cases hexisting : lookup Release.id manifest.id root with
  | none =>
    refine .inr ⟨.fresh, root ++ [⟨manifest.id, built, some manifest⟩], by decide, ?_, ?_, ?_⟩
    · simp only [promote, hexisting]
    · rw [lookup_insert, hexisting]
      simp
    · intro r hr
      rcases List.mem_append.1 hr with hr | hr
      · exact .inr hr
      · exact .inl (List.mem_singleton.1 hr)
  | some existing =>
    cases hkept : existing.manifest.filter fun m =>
        bootOk (reverify E existing.files) manifest.pkgversion && m.contentHash = some contentHash with
    | some kept =>
      obtain ⟨hmanifest, hmatches⟩ := Option.filter_eq_some_iff.1 hkept
      refine .inl ⟨existing, kept, rfl, hmanifest, ?_, ?_⟩
      · simp only [Bool.and_eq_true, decide_eq_true_eq] at hmatches
        exact hmatches.2
      · simp only [promote, hexisting, hkept]
    | none =>
      have hid := (lookup_mem hexisting).2
      have hkeys : ∀ r : Release, (Release.mk r.id built (some manifest)).id = r.id := fun r => rfl
      refine .inr ⟨.rebuilt (rebuiltReason (reverify E existing.files) existing manifest.pkgversion contentHash),
        updateWhere (·.id = manifest.id) (fun r => ⟨r.id, built, some manifest⟩) root, by simp, ?_, ?_, ?_⟩
      · simp only [promote, hexisting, hkept]
      · rw [lookup_updateWhere hkeys, hexisting, Option.map_some, if_pos hid, hid]
      · intro r hr
        obtain ⟨q, hq, rfl⟩ := mem_updateWhere.1 hr
        split
        next hq => exact .inl (hq ▸ rfl)
        next => exact .inr hq

/-- **A step.** Every release is as genuine as before, and the one under the id serves the files that were built, or was
kept because its files have the same hash. -/
theorem promote_served (hroot : ∀ r ∈ root, Genuine sha256 lockfileName r) (hhash : manifest.contentHash = some contentHash)
    (hbuilt : computeContentHash sha256 built lockfileName = some contentHash) :
    (∀ r ∈ (promote E built manifest contentHash root).2, Genuine sha256 lockfileName r) ∧
      ∃ r, lookup Release.id manifest.id (promote E built manifest contentHash root).2 = some r ∧
        (r.files = built ∨ (promote E built manifest contentHash root).1.outcome = .reused ∧
          computeContentHash sha256 r.files lockfileName = some contentHash) := by
  rcases promote_cases E built manifest contentHash root with ⟨existing, kept, hexisting, hkept, hsame, hrun⟩ |
    ⟨outcome, after, hnew, hrun, hfound, hafter⟩
  · rw [hrun]
    refine ⟨hroot, existing, hexisting, .inr ⟨rfl, ?_⟩⟩
    exact hroot existing (lookup_mem hexisting).1 kept hkept contentHash hsame
  · rw [hrun]
    refine ⟨?_, _, hfound, .inl rfl⟩
    intro r hr
    rcases hafter r hr with rfl | hr
    · intro m hm h hmh
      obtain rfl := Option.some.inj hm
      rw [hbuilt, ← hhash, hmh]
    · exact hroot r hr

theorem describe_hash (h : describe sha256 E built lockfileName = .ok (manifest, contentHash)) :
    manifest.contentHash = some contentHash ∧ computeContentHash sha256 built lockfileName = some contentHash := by
  unfold describe at h
  split at h
  · cases h
  · split at h
    · cases h
    next hhash =>
      cases h
      exact ⟨rfl, hhash⟩

theorem bind_ok {ε α β : Type} {x : Except ε α} {f : α → Except ε β} {b : β} (h : x >>= f = .ok b) :
    ∃ a, x = .ok a ∧ f a = .ok b := by
  cases x with
  | error e => cases h
  | ok a => exact ⟨a, rfl, h⟩

theorem build_hash {checkout : Directory} (h : build sha256 E checkout lockfileName = .ok (built, manifest, contentHash)) :
    manifest.contentHash = some contentHash ∧ computeContentHash sha256 built lockfileName = some contentHash := by
  obtain ⟨_, _, h⟩ := bind_ok h
  obtain ⟨dir, _, h⟩ := bind_ok h
  obtain ⟨described, hdescribe, h⟩ := bind_ok h
  obtain ⟨_, _, h⟩ := bind_ok h
  cases h
  exact describe_hash hdescribe

theorem materializeRelease_genuine {checkout : Directory} {result : MaterializeReleaseResult} {after : List Release}
    (hroot : ∀ r ∈ root, Genuine sha256 lockfileName r)
    (h : materializeRelease sha256 E checkout lockfileName root = .ok (result, after)) :
    ∀ r ∈ after, Genuine sha256 lockfileName r := by
  obtain ⟨done, hbuild, h⟩ := bind_ok h
  obtain ⟨hmanifest, hhash⟩ := build_hash hbuild
  have hstep := (promote_served (E := E) hroot hmanifest hhash).1
  rw [Except.ok.inj h] at hstep
  exact hstep

/-- the releases after a run; a materialization that throws leaves them as they are -/
def materializations (sha256 : Bytes → String) (lockfileName : FileName) (steps : List (Env × Directory)) : List Release :=
  steps.foldl (fun root step => (materializeRelease sha256 step.1 step.2 lockfileName root).toOption.elim root (·.2)) []

/-- **A run.** Every manifest records the hash of the files beside it. -/
theorem materializations_genuine (sha256 : Bytes → String) (lockfileName : FileName) (steps : List (Env × Directory)) :
    ∀ r ∈ materializations sha256 lockfileName steps, Genuine sha256 lockfileName r := by
  unfold materializations
  have hrun : ∀ root : List Release, (∀ r ∈ root, Genuine sha256 lockfileName r) → ∀ r ∈ steps.foldl
      (fun root step => (materializeRelease sha256 step.1 step.2 lockfileName root).toOption.elim root (·.2)) root,
      Genuine sha256 lockfileName r := by
    induction steps with
    | nil => exact fun root hroot => hroot
    | cons step steps ih =>
      intro root hroot
      rw [List.foldl_cons]
      apply ih
      cases hstep : materializeRelease sha256 step.1 step.2 lockfileName root with
      | error e => exact hroot
      | ok done => exact materializeRelease_genuine hroot hstep
  exact hrun [] (by simp)

/-! ## Identity -/

/-- the release has the file among those that are hashed -/
def Ships (lockfileName : FileName) (dir : Directory) (f : ReleaseFile) : Prop :=
  ∃ files, hashedFiles dir lockfileName = some files ∧ f ∈ files

/-- the same paths with the same bytes -/
def SameFiles (lockfileName : FileName) (A B : Directory) : Prop := ∀ f, Ships lockfileName A f ↔ Ships lockfileName B f

/-- in the order of the paths, the two are the same pieces, and file by file they do not have the same numbers of NULs -/
def Regrouped (lockfileName : FileName) (A B : Directory) : Prop :=
  ∃ as bs, hashedFiles A lockfileName = some as ∧ hashedFiles B lockfileName = some bs ∧
    (as.insertionSort pathLe).flatMap pieces = (bs.insertionSort pathLe).flatMap pieces ∧
    (as.insertionSort pathLe).map nulCount ≠ (bs.insertionSort pathLe).map nulCount

/-- the id of a build and of a release tells whether their files are the same, so a release of that id is one of the build -/
structure Identified (sha256 : Bytes → String) (lockfileName : FileName) (A B : Directory) : Prop where
  content : ∀ id, computeContentHash sha256 A lockfileName = some id → computeContentHash sha256 B lockfileName = some id →
    SameFiles lockfileName A B
  served : ∀ E manifest contentHash root existing, computeContentHash sha256 A lockfileName = some contentHash →
    lookup Release.id manifest.id root = some existing → existing.files = B → Genuine sha256 lockfileName existing →
    ∃ r, lookup Release.id manifest.id (promote E A manifest contentHash root).2 = some r ∧ SameFiles lockfileName A r.files

theorem sameFiles_iff {as bs : List ReleaseFile} (ha : hashedFiles A lockfileName = some as)
    (hb : hashedFiles B lockfileName = some bs) : SameFiles lockfileName A B ↔ ∀ f, f ∈ as ↔ f ∈ bs := by
  simp [SameFiles, Ships, ha, hb]

theorem SameFiles.refl (lockfileName : FileName) (A : Directory) : SameFiles lockfileName A A := fun _ => Iff.rfl

/-- one hash is one sequence of pieces -/
theorem contentHash_eq_iff (hinj : Function.Injective sha256) {as bs : List ReleaseFile}
    (ha : hashedFiles A lockfileName = some as) (hb : hashedFiles B lockfileName = some bs) :
    computeContentHash sha256 A lockfileName = computeContentHash sha256 B lockfileName ↔
      (as.insertionSort pathLe).flatMap pieces = (bs.insertionSort pathLe).flatMap pieces := by
  obtain ⟨HA⟩ := hashedFiles_parts ha
  obtain ⟨HB⟩ := hashedFiles_parts hb
  rw [← hashInput_eq_iff (fun f hf => HA.plain hf) (fun f hf => HB.plain hf), computeContentHash, computeContentHash, ha, hb,
    Option.map_some, Option.map_some, Option.some.injEq, hinj.eq_iff]

theorem computeContentHash_some {id : String} (h : computeContentHash sha256 dir lockfileName = some id) :
    ∃ files, hashedFiles dir lockfileName = some files := by
  obtain ⟨files, hfiles, _⟩ := Option.map_eq_some_iff.1 h
  exact ⟨files, hfiles⟩

/-- without a regrouping one id is one set of files -/
theorem sameFiles_of_hash (hinj : Function.Injective sha256) (hregroup : ¬ Regrouped lockfileName A B) {id : String}
    (hA : computeContentHash sha256 A lockfileName = some id) (hB : computeContentHash sha256 B lockfileName = some id) :
    SameFiles lockfileName A B := by
  obtain ⟨as, ha⟩ := computeContentHash_some hA
  obtain ⟨bs, hb⟩ := computeContentHash_some hB
  have hpieces := (contentHash_eq_iff hinj ha hb).1 (hA.trans hB.symm)
  have hcounts : (as.insertionSort pathLe).map nulCount = (bs.insertionSort pathLe).map nulCount := by
    by_contra hne
    exact hregroup ⟨as, bs, ha, hb, hpieces, hne⟩
  have hsorted := files_of_pieces hpieces hcounts
  rw [sameFiles_iff ha hb]
  intro f
  rw [← List.mem_insertionSort pathLe (l := as), hsorted, List.mem_insertionSort]

/-- **After a run.** What a materialization leaves under its id serves the files that were built, or a regrouping of them. -/
theorem materialized_served (hinj : Function.Injective sha256) (steps : List (Env × Directory)) {checkout : Directory}
    {result : MaterializeReleaseResult} {after : List Release}
    (h : materializeRelease sha256 E checkout lockfileName (materializations sha256 lockfileName steps) =
      .ok (result, after)) :
    ∃ built manifest contentHash r, build sha256 E checkout lockfileName = .ok (built, manifest, contentHash) ∧
      lookup Release.id manifest.id after = some r ∧
      (SameFiles lockfileName built r.files ∨ Regrouped lockfileName built r.files) := by
  obtain ⟨done, hbuild, h⟩ := bind_ok h
  obtain ⟨built, manifest, contentHash⟩ := done
  obtain ⟨hmanifest, hhash⟩ := build_hash hbuild
  obtain ⟨_, r, hfound, hserved⟩ := promote_served (E := E) (materializations_genuine sha256 lockfileName steps) hmanifest hhash
  rw [Except.ok.inj h] at hfound
  refine ⟨built, manifest, contentHash, r, hbuild, hfound, ?_⟩
  rcases hserved with hbuilt | ⟨_, hsame⟩
  · exact .inl (hbuilt ▸ SameFiles.refl lockfileName built)
  · by_cases hregroup : Regrouped lockfileName built r.files
    · exact .inr hregroup
    · exact .inl (sameFiles_of_hash hinj hregroup hhash hsame)

/-- files without a NUL are not regrouped -/
theorem not_regrouped_of_nul_free (hA : ∀ f, Ships lockfileName A f → 0 ∉ f.bytes)
    (hB : ∀ f, Ships lockfileName B f → 0 ∉ f.bytes) : ¬ Regrouped lockfileName A B := by
  intro hregroup
  obtain ⟨as, bs, ha, hb, hpieces, hcounts⟩ := hregroup
  have hzero : ∀ fs : List ReleaseFile, (∀ f ∈ fs, 0 ∉ f.bytes) →
      fs.map nulCount = List.replicate fs.length 0 ∧ (fs.flatMap pieces).length = 2 * fs.length := by
    intro fs hfs
    induction fs with
    | nil => exact ⟨rfl, rfl⟩
    | cons f fs ih =>
      obtain ⟨hmap, hlength⟩ := ih fun g hg => hfs g (List.mem_cons_of_mem f hg)
      have hf : nulCount f = 0 := List.count_eq_zero.2 (hfs f List.mem_cons_self)
      refine ⟨by rw [List.map_cons, hmap, hf]; rfl, ?_⟩
      rw [List.flatMap_cons, List.length_append, hlength, length_pieces, hf, List.length_cons]
      omega
  obtain ⟨hmapA, hlengthA⟩ := hzero (as.insertionSort pathLe) fun f hf => hA f ⟨as, ha, (List.mem_insertionSort _).1 hf⟩
  obtain ⟨hmapB, hlengthB⟩ := hzero (bs.insertionSort pathLe) fun f hf => hB f ⟨bs, hb, (List.mem_insertionSort _).1 hf⟩
  rw [hpieces, hlengthB] at hlengthA
  apply hcounts
  rw [hmapA, hmapB]
  congr 1
  omega

/-- a file that takes in the next one, with its path between NULs, keeps the input -/
theorem merged_fed (before after : List ReleaseFile) (f g : ReleaseFile) :
    (before ++ f :: g :: after).flatMap fed =
      (before ++ ⟨f.path, f.bytes ++ 0 :: (utf8 g.path ++ 0 :: g.bytes)⟩ :: after).flatMap fed := by
  simp [fed]

/-- **Identity.** -/
theorem content_identity_iff (hinj : Function.Injective sha256) (lockfileName : FileName) (A B : Directory) :
    Identified sha256 lockfileName A B ↔ ¬ Regrouped lockfileName A B := by
  constructor
  · intro h hregroup
    obtain ⟨as, bs, ha, hb, hpieces, hcounts⟩ := hregroup
    have hid : ∃ id, computeContentHash sha256 A lockfileName = some id := by
      simp [computeContentHash, ha]
    obtain ⟨id, hA⟩ := hid
    have hsame := h.content id hA ((contentHash_eq_iff hinj ha hb).2 hpieces ▸ hA)
    rw [sameFiles_iff ha hb] at hsame
    obtain ⟨HA⟩ := hashedFiles_parts ha
    obtain ⟨HB⟩ := hashedFiles_parts hb
    exact hcounts (by rw [same_sorted HA HB hsame])
  · intro hregroup
    refine ⟨fun id => sameFiles_of_hash hinj hregroup, ?_⟩
    intro E manifest contentHash root existing hhash hexisting hfiles hgenuine
    rcases promote_cases E A manifest contentHash root with ⟨same, kept, hsame, hkept, hmatch, hrun⟩ |
      ⟨outcome, after, _, hrun, hfound, _⟩
    · obtain rfl := Option.some.inj (hexisting.symm.trans hsame)
      rw [hrun]
      refine ⟨existing, hexisting, ?_⟩
      rw [hfiles]
      exact sameFiles_of_hash hinj hregroup hhash (hfiles ▸ hgenuine kept hkept contentHash hmatch)
    · rw [hrun]
      exact ⟨_, hfound, SameFiles.refl lockfileName A⟩

/-! ## A migration that is not served -/

def bunLock : FileName := { text := "bun.lock" }

theorem cli_plain : "cli" ≠ "" ∧ '/' ∉ "cli".toList ∧ '\x00' ∉ "cli".toList := by decide

def cliName : FileName := ⟨"cli", cli_plain⟩

/-- the entries of a release with these migrations -/
def releaseEntries (migrations : List (FileName × Bytes)) : List (FileName × Entry) :=
  [(distName, .directory [(cliName, .directory [({ text := "index.js" }, .file (utf8 "main()"))])]),
    (migrationsName, .directory (migrations.map fun m => (m.1, .file m.2))),
    (packageName, .file (utf8 "\x7b\"version\":\"1.0.0\"\x7d")), (bunLock, .file [])]

theorem releaseEntries_distinct {migrations : List (FileName × Bytes)} (hkeyed : Keyed Prod.fst migrations) :
    (Entry.directory (releaseEntries migrations)).Distinct := by
  have hmigrations : (Entry.directory (migrations.map fun m => (m.1, .file m.2))).Distinct := by
    refine .directory (by simpa [Keyed, Function.comp_def] using hkeyed) ?_
    intro e he
    obtain ⟨m, _, rfl⟩ := List.mem_map.1 he
    exact .file m.2
  have hcli : (Entry.directory [({ text := "index.js" }, .file (utf8 "main()"))]).Distinct :=
    .directory (by decide) fun e he => List.mem_singleton.1 he ▸ .file _
  have hdist : (Entry.directory [(cliName, .directory [({ text := "index.js" }, .file (utf8 "main()"))])]).Distinct :=
    .directory (by decide) fun e he => List.mem_singleton.1 he ▸ hcli
  have hnames : Keyed id [distName, migrationsName, packageName, bunLock] := by decide
  refine .directory hnames ?_
  intro e he
  simp only [releaseEntries, List.mem_cons, List.not_mem_nil, or_false] at he
  rcases he with rfl | rfl | rfl | rfl
  · exact hdist
  · exact hmigrations
  · exact .file _
  · exact .file _

/-- a release with these migrations -/
def releaseTree (migrations : List (FileName × Bytes)) (hkeyed : Keyed Prod.fst migrations) : Directory where
  entries := releaseEntries migrations
  distinct := releaseEntries_distinct hkeyed

def initSql : FileName := { text := "001-init.sql" }

def nextSql : FileName := { text := "002-next.sql" }

/-- two migrations -/
def upgraded : Directory := releaseTree [(initSql, utf8 "A"), (nextSql, utf8 "B")] (by decide)

/-- one migration, with the other's path and text behind NULs -/
def stale : Directory := releaseTree [(initSql, utf8 "A\x00migrations/002-next.sql\x00B")] (by decide)

/-- **The old release is kept.** Both trees have one id, and the second migration is not in the release. -/
theorem stale_release_kept : ¬ SameFiles bunLock upgraded stale ∧ ∀ sha256 : Bytes → String,
    ∃ id, computeContentHash sha256 upgraded bunLock = some id ∧ computeContentHash sha256 stale bunLock = some id := by
  have hupgraded : hashedFiles upgraded bunLock = some [⟨"dist/cli/index.js", utf8 "main()"⟩,
      ⟨"migrations/001-init.sql", utf8 "A"⟩, ⟨"migrations/002-next.sql", utf8 "B"⟩,
      ⟨"package.json", utf8 "\x7b\"version\":\"1.0.0\"\x7d"⟩, ⟨"bun.lock", []⟩] := by decide +kernel
  have hstale : hashedFiles stale bunLock = some [⟨"dist/cli/index.js", utf8 "main()"⟩,
      ⟨"migrations/001-init.sql", utf8 "A\x00migrations/002-next.sql\x00B"⟩,
      ⟨"package.json", utf8 "\x7b\"version\":\"1.0.0\"\x7d"⟩, ⟨"bun.lock", []⟩] := by decide +kernel
  constructor
  · rw [sameFiles_iff hupgraded hstale]
    intro hsame
    have hnext := (hsame ⟨"migrations/002-next.sql", utf8 "B"⟩).1 (by decide +kernel)
    revert hnext
    decide +kernel
  · intro sha256
    rw [computeContentHash, computeContentHash, hupgraded, hstale]
    exact ⟨_, rfl, congrArg (fun input => some (sha256 input)) (by decide +kernel)⟩

/-- bytes as characters -/
def spell (bytes : Bytes) : String := String.ofList (bytes.map fun b => Char.ofNat b.toNat)

theorem spell_injective : Function.Injective spell := by
  have hchar : Function.Injective fun b : UInt8 => Char.ofNat b.toNat := by
    have hnat : ∀ c : UInt8, (Char.ofNat c.toNat).toNat = c.toNat := by
      intro c
      have hvalid : c.toNat.isValidChar := .inl (Nat.lt_trans c.toNat_lt (by decide))
      rw [Char.ofNat, dif_pos hvalid]
      rfl
    intro a b h
    have hsame := congrArg Char.toNat h
    rw [hnat, hnat] at hsame
    exact UInt8.toNat_inj.1 hsame
  intro a b h
  exact List.map_injective_iff.2 hchar (String.ofList_inj.1 h)

theorem content_identity_upgraded : Identified spell bunLock upgraded stale ↔ ¬ Regrouped bunLock upgraded stale :=
  content_identity_iff spell_injective bunLock upgraded stale

end AstramemLocal.Service
