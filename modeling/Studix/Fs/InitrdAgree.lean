import Studix.Fs.InitrdCount

/-!
# Listing and lookup on a loaded ramdisk

A lookup in the root goes by the names of the nodes, and the listing of the root gives what the
static `dir_entry` reads as after each of them has been copied to it. Both agree, and `file_count`
counts each file once, exactly when the names of the nodes are distinct, none of them is `dev`, and
every copy finds a zero in the byte that `strcpy` skips. On `/dev` the two agree exactly when there
are no files.

## Main results

* `Listing.listDir_root`: the entries of the root.
* `lookupAgrees_iff`: when listing and lookup agree, for each of the two directories.
-/

namespace Studix.Initrd

open Vfs

/-! ### The two directories -/

section

variable {rd : State} {names rest : List (List Byte)} {str : List Byte}

/-- **The entries from an index on**, by induction on the nodes that are left. -/
theorem listDirLoop_spec {fuel i : ℕ} (done : List (List Byte)) {old : Memory}
    (h : Listing rd names) (hnames : names = done ++ rest) (hi : i = done.length)
    (hold : EntryHolds rd.dirEntry old) (hfuel : rest.length < fuel) :
    ∃ entries, listDirLoop .root fuel (i + 1) rd = .ok entries ∧
      List.Forall₂ (fun entry p => Reads entry p.1 p.2) entries ((copied old rest).zipIdx i) := by
  induction rest generalizing rd fuel i done old with
  | nil =>
    obtain ⟨fuel, rfl⟩ : ∃ n, fuel = n + 1 := ⟨fuel - 1, by omega⟩
    obtain rfl : i = names.length := by rw [hi, hnames, List.append_nil]
    rw [listDirLoop, h.readDir_end]
    exact ⟨[], rfl, .nil⟩
  | cons name rest ih =>
    obtain ⟨fuel, rfl⟩ : ∃ n, fuel = n + 1 := ⟨fuel - 1, by omega⟩
    rw [List.length_cons] at hfuel
    have hlt : i < names.length := by
      rw [hnames, List.length_append, List.length_cons]
      omega
    have hname : names[i] = name := by
      simp [hnames, hi]
    obtain ⟨entry, hread, hreads, hraw⟩ := h.readDir_succ hlt hold
    rw [hname] at hreads hraw
    obtain ⟨entries, hloop, hentries⟩ : ∃ entries,
        listDirLoop .root fuel (i + 1 + 1) { rd with dirEntry := entry } = .ok entries ∧ _ :=
      ih (done ++ [name]) (h.setEntry entry) (by simp [hnames]) (by simp [hi]) hraw
        (Nat.lt_of_succ_lt_succ hfuel)
    refine ⟨entry :: entries, ?_, .cons hreads hentries⟩
    rw [listDirLoop, hread, except_ok_bind]
    dsimp only
    rw [hloop]
    rfl

/-- **The listing of the root**: `dev`, and a copy of the name of each node with its number. -/
theorem Listing.listDir_root (h : Listing rd names) (hzero : rd.dirEntry = ⟨fun _ => 0⟩) :
    ∃ dev entries, listDir rd .root = .ok (dev :: entries) ∧ Reads dev devString 0 ∧
      entries.length = (listed names).length ∧
      ∀ j (hj : j < entries.length) (hj' : j < (listed names).length),
        Reads entries[j] (listed names)[j] j := by
  have hnum := h.num_lt
  obtain ⟨dev, hread, hreads, hraw⟩ := h.readDir_zero hzero
  obtain ⟨entries, hloop, hentries⟩ : ∃ entries,
      listDirLoop .root (2 ^ 32 - 1) 1 { rd with dirEntry := dev } = .ok entries ∧
        List.Forall₂ (fun entry p => Reads entry p.1 p.2) entries (listed names).zipIdx :=
    listDirLoop_spec [] (h.setEntry dev) rfl rfl hraw (by omega)
  obtain ⟨hlength, hget⟩ := List.forall₂_iff_get.mp hentries
  rw [List.length_zipIdx] at hlength
  refine ⟨dev, entries, ?_, hreads, hlength, fun j hj hj' => ?_⟩
  · rw [listDir, show 2 ^ 32 = 2 ^ 32 - 1 + 1 by norm_num, listDirLoop, hread, except_ok_bind]
    dsimp only
    rw [hloop]
    rfl
  · have hj'' : j < (listed names).zipIdx.length := by rwa [List.length_zipIdx]
    simpa using hget j hj hj''

/-- The first node with a name is the one with the number of the entry, for all entries, exactly
when the entries read as the names of the nodes and these are distinct. -/
theorem findIdx?_listed_iff : (∀ j (hj : j < (listed names).length),
      names.findIdx? (· == (listed names)[j]) = some j) ↔ names.Nodup ∧ listed names = names := by
  have hlength : (listed names).length = names.length := length_copied _ _
  constructor
  · intro hall
    have hsame : listed names = names := by
      refine List.ext_getElem hlength fun j hj _ => ?_
      obtain ⟨_, heq, -⟩ := List.findIdx?_eq_some_iff_getElem.mp (hall j hj)
      exact (beq_iff_eq.mp heq).symm
    refine ⟨List.pairwise_iff_getElem.mpr fun i j hi hj hij heq => ?_, hsame⟩
    obtain ⟨_, hj', hfirst⟩ := List.findIdx?_eq_some_iff_getElem.mp (hall j (hlength ▸ hj))
    refine hfirst i hij (beq_iff_eq.mpr ?_)
    rw [heq, beq_iff_eq.mp hj']
  · rintro ⟨hnodup, hsame⟩ j hj
    simp only [hsame] at hj ⊢
    refine List.findIdx?_eq_some_iff_getElem.mpr ⟨hj, beq_self_eq_true _, fun i hi heq => ?_⟩
    exact List.pairwise_iff_getElem.mp hnodup i j (hi.trans hj) hj hi (beq_iff_eq.mp heq)

/-- **Listing and lookup agree on the root, and each file is counted once**, exactly when the names
of the nodes are distinct, none is `dev`, and they are listed unchanged. -/
theorem Listing.lookupAgrees_root_iff (h : Listing rd names) (hzero : rd.dirEntry = ⟨fun _ => 0⟩) :
    (LookupAgrees rd .root ∧ fileCount rd .root = .ok names.length) ↔
      (names.Nodup ∧ listed names = names) ∧ devString ∉ names := by
  have hshort : ∀ str ∈ names, str.length < 2 ^ 32 := fun str hstr =>
    (h.short str hstr).trans (by decide)
  obtain ⟨dev, entries, hlist, hdev, hlength, hreads⟩ := h.listDir_root hzero
  have hlisted : (listed names).length = names.length := length_copied _ _
  rw [h.fileCount_eq hzero, countOf_eq_ok_iff hlisted, ← findIdx?_listed_iff]
  constructor
  · rintro ⟨⟨entries', hlist', -, hinode⟩, hcount⟩
    obtain rfl := Except.ok.inj (hlist.symm.trans hlist')
    have hfirst : ∀ j (hj : j < (listed names).length),
        names.findIdx? (· == (listed names)[j]) = some j := by
      intro j hj
      have hj' : j < entries.length := hlength ▸ hj
      obtain ⟨hne, hmem⟩ := hcount _ (List.getElem_mem hj)
      obtain ⟨hstr, hentry⟩ := hreads j hj' hj
      obtain ⟨ref, hfind, href⟩ := hinode entries[j] (List.mem_cons_of_mem _ (List.getElem_mem hj'))
      rw [h.findDir_root hstr (hshort _ hmem), if_neg hne] at hfind
      obtain ⟨i, hi, rfl⟩ := Option.map_eq_some_iff.mp (Except.ok.inj hfind)
      obtain ⟨hlt, -⟩ := List.findIdx?_eq_some_iff_getElem.mp hi
      rw [hi, ← h.inode i hlt]
      exact congrArg some (href.trans hentry)
    refine ⟨hfirst, fun hmem => ?_⟩
    rw [← (findIdx?_listed_iff.mp hfirst).2] at hmem
    exact (hcount _ hmem).1 rfl
  · rintro ⟨hfirst, hnotDev⟩
    obtain ⟨-, hsame⟩ := findIdx?_listed_iff.mp hfirst
    simp only [hsame] at hreads hfirst hlength ⊢
    refine ⟨⟨dev :: entries, hlist, fun buf str hbuf hlen => ?_, ?_⟩,
      fun name hname => ⟨fun heq => hnotDev (heq ▸ hname), hname⟩⟩
    · rw [h.findDir_root hbuf hlen]
      by_cases heq : str = devString
      · exact iff_of_true ⟨.dev, by rw [if_pos heq]⟩ ⟨dev, List.mem_cons_self, heq ▸ hdev.1⟩
      · rw [if_neg heq]
        constructor
        · rintro ⟨ref, href⟩
          obtain ⟨j, hj, -⟩ := Option.map_eq_some_iff.mp (Except.ok.inj href)
          obtain ⟨hlt, hj', -⟩ := List.findIdx?_eq_some_iff_getElem.mp hj
          have hlt' : j < entries.length := hlength ▸ hlt
          refine ⟨entries[j], List.mem_cons_of_mem _ (List.getElem_mem hlt'), ?_⟩
          rw [← beq_iff_eq.mp hj']
          exact (hreads j hlt' hlt).1
        · rintro ⟨entry, hmem, hstr⟩
          rcases List.mem_cons.mp hmem with rfl | hmem
          · exact absurd (hstr.unique hdev.1) heq
          · obtain ⟨j, hj, rfl⟩ := List.mem_iff_getElem.mp hmem
            have hlt : j < names.length := hlength ▸ hj
            obtain rfl := hstr.unique (hreads j hj hlt).1
            exact ⟨.file j, by rw [hfirst j hlt]; rfl⟩
    · intro entry hmem
      rcases List.mem_cons.mp hmem with rfl | hmem
      · refine ⟨.dev, ?_, h.dev_inode.trans hdev.2.symm⟩
        rw [h.findDir_root hdev.1 (by decide), if_pos rfl]
      · obtain ⟨j, hj, rfl⟩ := List.mem_iff_getElem.mp hmem
        have hlt : j < names.length := hlength ▸ hj
        obtain ⟨hstr, hentry⟩ := hreads j hj hlt
        have hne : names[j] ≠ devString := fun heq => hnotDev (heq ▸ List.getElem_mem hlt)
        refine ⟨.file j, ?_, (h.inode j hlt).trans hentry.symm⟩
        rw [h.findDir_root hstr (hshort _ (List.getElem_mem hlt)), if_neg hne, hfirst j hlt]
        rfl

end

/-- **Enumeration and lookup on a loaded ramdisk**, for every image with names shorter than
`MAX_NAME_LENGTH - 1`: on `/dev` they agree exactly when there are no files. On the root they agree
and each file is counted once exactly when the names that the first `strcpy` leaves in the nodes are
distinct, none of them is `dev`, and the second one finds a zero behind each of them. -/
theorem lookupAgrees_iff (mem : Memory) (fresh : Fresh) (location : ℕ) (names : List (List Byte))
    (hcount : (mem location).toNat = names.length)
    (hnames : ∀ i (hi : i < names.length),
      IsCString (bufferAt mem (headerAddr kernelWord location i)) names[i] ∧
        names[i].length + 1 < maxNameLength) :
    ∃ rd, initInitrd mem fresh location = .ok rd ∧
      (LookupAgrees rd .dev ↔ names = []) ∧
      ((LookupAgrees rd .root ∧ fileCount rd .root = .ok names.length) ↔
        (nodeNames fresh names).Nodup ∧ devString ∉ nodeNames fresh names ∧
          ZeroBehind (devString :: nodeNames fresh names)) := by
  obtain ⟨rd, hinit, hlisting, hzero⟩ := listing_of_initInitrd fresh hcount hnames
  have hlength := length_nodeNames fresh names
  have hnul : ∀ s ∈ nodeNames fresh names, (0 : Byte) ∉ s := by
    intro s hs h0
    obtain ⟨i, hi, rfl⟩ := List.mem_iff_getElem.mp hs
    exact (hlisting.name i hi).ne_zero 0 h0 rfl
  refine ⟨rd, hinit, ?_, ?_⟩
  · rw [lookupAgrees_dev_iff hlisting.dev (hlisting.num_eq ▸ hlisting.num_lt), hlisting.num_eq,
      hlength, List.length_eq_zero_iff]
    intro hpos
    rw [hlisting.num_eq] at hpos
    exact ⟨_, hlisting.name 0 hpos,
      (hlisting.short _ (List.getElem_mem hpos)).trans (by decide)⟩
  · rw [← hlength, hlisting.lookupAgrees_root_iff hzero, listed_eq_self_iff hnul]
    tauto

/-- The file `hello` is listed in the root and found there, and counted; it is found in `/dev`
too. -/
theorem lookupAgrees_iff_helloImage : ∃ rd, initInitrd helloImage zeroFresh 0 = .ok rd ∧
    ¬LookupAgrees rd .dev ∧ LookupAgrees rd .root ∧ fileCount rd .root = .ok 1 := by
  obtain ⟨rd, hinit, hdev, hroot⟩ :=
    lookupAgrees_iff helloImage zeroFresh 0 _ helloImage_names.1 helloImage_names.2
  refine ⟨rd, hinit, fun hagrees => ?_, hroot.mpr ⟨by decide, by decide, ?_⟩⟩
  · exact List.cons_ne_nil _ _ (hdev.mp hagrees)
  · exact zeroBehind_of_sorted (by decide)

end Studix.Initrd
