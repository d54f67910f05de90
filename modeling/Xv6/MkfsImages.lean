import Xv6.MkfsFiles

/-!
# What the made file system holds

After each file on the command line the image holds the files so far under the numbers from
2 on, and the root directory lists them in that order. The kernel finds them by name and reads
their bytes back. The image is consistent except for two kinds of command lines: more files than
the inode blocks have room for, and a root directory that fills its last block.
-/

namespace Xv6.Mkfs
open Function

open LittleEndianBlocks Fs ExactOwnership OperationPrograms

variable {s s' : State} {files done : List Input} {f : Input}

def direntsOf (files : List Input) : List Dirent :=
  ⟨rootIno, [46]⟩ :: ⟨rootIno, [46, 46]⟩ :: files.mapIdx fun k f => ⟨k + 2, f.name⟩

/-- The contents of the inodes: the root directory, and then the files. -/
def contentOf (files : List Input) : ℕ → List UInt8
  | 0 => []
  | 1 => direntBytes (direntsOf files)
  | k + 2 => (files[k]?.map Input.bytes).getD []

theorem length_direntsOf (files : List Input) : (direntsOf files).length = files.length + 2 := by
  simp [direntsOf]

theorem length_root (files : List Input) :
    (contentOf files rootIno).length = (files.length + 2) * direntSize := by
  rw [← length_direntsOf]
  exact length_direntBytes _

theorem contentOf_concat (files : List Input) (f : Input) :
    contentOf (files ++ [f]) = update (update (contentOf files) rootIno
      (contentOf files rootIno ++ encodeDirent ⟨files.length + 2, f.name⟩)) (files.length + 2)
      f.bytes := by
  funext i
  match i with
  | 0 => simp [contentOf, rootIno]
  | 1 =>
    have hdirents : direntsOf (files ++ [f]) = direntsOf files ++ [⟨files.length + 2, f.name⟩] := by
      simp [direntsOf, List.mapIdx_append]
    simp [contentOf, rootIno, hdirents, direntBytes]
  | k + 2 =>
    by_cases hk : k = files.length
    · subst hk
      simp [contentOf]
    · rw [update_of_ne (by omega), update_of_ne (by simp [rootIno])]
      by_cases hlt : k < files.length
      · simp [contentOf, List.getElem?_append_left hlt]
      · have hout : files.length + 1 ≤ k := by omega
        simp [contentOf, List.getElem?_eq_none (show (files ++ [f]).length ≤ k by simpa using hout),
          List.getElem?_eq_none (show files.length ≤ k by omega)]

def blocksUsed (files : List Input) : ℕ :=
  nmeta + blocksOf ((files.length + 2) * direntSize) +
    (files.map fun f => blocksOf f.bytes.length).sum

structure Built (files : List Input) (s : State) : Prop where
  laid : Laid s (contentOf files)
  freeinode : s.freeinode = files.length + 2
  freeblock : s.freeblock = blocksUsed files

/-! ### The empty root directory -/

theorem foldl_wsect_zero (s : State) (himage : s.image = fun _ _ => 0) (hlength : s.length = 0)
    {n : ℕ} (hn : n ≤ fsSize) :
    (List.range n).foldl (fun s i => wsect s i fun _ => 0) s = { s with length := n } := by
  induction n with
  | zero =>
    obtain ⟨image, length, freeinode, freeblock⟩ := s
    exact congrArg (State.mk image · freeinode freeblock) hlength
  | succ n ih =>
    rw [List.range_succ, List.foldl_append, ih (Nat.le_of_succ_le hn)]
    simp [wsect, himage, sector_eq (Nat.le_of_succ_le hn)]

theorem zeroImage_eq : zeroImage =
    { image := fun _ _ => 0, length := fsSize, freeinode := 1, freeblock := nmeta } := by
  delta zeroImage
  rw [foldl_wsect_zero _ rfl rfl le_rfl]

theorem superblock_written : wsect zeroImage 1 (putWords (fun _ => 0) 0 sbWords) =
    { image := update (fun _ _ => 0) 1 (putWords (fun _ => 0) 0 sbWords)
      length := fsSize, freeinode := 1, freeblock := nmeta } := by
  rw [zeroImage_eq, wsect_of_lt rfl (by decide)]

theorem laid_zero :
    Laid (wsect zeroImage 1 (putWords (fun _ => 0) 0 sbWords)) fun _ => [] := by
  have hs := superblock_written
  generalize wsect zeroImage 1 (putWords (fun _ => 0) 0 sbWords) = s at *
  have hblock (x : ℕ) (hx : x ≠ 1) : s.image x = fun _ => 0 := by
    rw [hs]
    exact update_of_ne hx _ (fun _ _ => 0 : Disk)
  have hsuper : s.image 1 = putWords (fun _ => 0) 0 sbWords := by
    rw [hs]
    exact update_self 1 _ (fun _ _ => 0 : Disk)
  have hlength : s.length = fsSize := by rw [hs]
  have hino : s.freeinode = 1 := by rw [hs]
  have hfree : s.freeblock = nmeta := by rw [hs]
  have htype (i : ℕ) : (dinode area s.image i).type = 0 := by
    rw [dinode, hblock _ (sb_block_lt i).ne']
    simp [decodeDinode, getShort, getField_zero]
  refine ⟨⟨hlength, hfree.ge, ?_, ⟨?_, ?_, ?_⟩, ?_⟩, hino.ge, ?_, fun i _ _ => htype i, ?_, ?_, ?_,
    ?_⟩
  · rw [hfree]
    decide
  · rintro ⟨i, q⟩ b hb
    exact absurd (htype i) (owns_eq_some.mp hb).1.2
  · rintro ⟨i, q⟩ o' b hb
    exact absurd (htype i) (owns_eq_some.mp hb).1.2
  · intro b hb
    refine iff_of_false ?_ ?_
    · have := (mem_dataBlocks.mp hb).1
      rw [decide_eq_true_eq]
      omega
    · rintro ⟨⟨i, q⟩, hq⟩
      exact (owns_eq_some.mp hq).1.2 (htype i)
  · intro b hb _
    have hmeta : 1 < nmeta := by decide
    exact hblock b (by omega)
  · rw [hino]
    decide
  · exact fun i h1 hi => absurd hi (by omega)
  · exact fun i h1 hi => absurd hi (by omega)
  · exact fun i h1 hi => absurd hi (by omega)
  · rw [hsuper]
    exact getWords_putWords _ _ _ (by decide) (by decide)

theorem blocksOf_of_le {n : ℕ} (hpos : 0 < n) (hn : n ≤ bSize) : blocksOf n = 1 := by
  rw [blocksOf, if_neg] <;> simp only [bSize, nDirect] at * <;> omega

theorem start_spec : ∃ s, start = .ok s ∧ Built [] s := by
  have hzero := laid_zero
  have hino : (wsect zeroImage 1 (putWords (fun _ => 0) 0 sbWords)).freeinode = 1 := by
    rw [superblock_written]
  have hfree : (wsect zeroImage 1 (putWords (fun _ => 0) 0 sbWords)).freeblock = nmeta := by
    rw [superblock_written]
  have hroom : nmeta + 1 ≤ fsSize := by decide
  have hmax : maxFile * bSize = 274432 := by decide
  refine Ends.exists_ok ?_
  rw [start]
  generalize wsect zeroImage 1 (putWords (fun _ => 0) 0 sbWords) = s at *
  refine Ends.bind ((ialloc_spec hzero (by rw [hino]; decide) rfl
    (by rw [hino]; rfl)).mono ?_)
  rintro ⟨inum, s₁⟩ ⟨hinum, h₁, hino₁, hfree₁⟩
  dsimp only at hinum h₁ hino₁ hfree₁ ⊢
  obtain rfl : inum = rootIno := hinum.trans hino
  rw [if_pos rfl]
  have hlen (de : Dirent) : (encodeDirent de).length = 16 := length_encodeDirent de
  have hone := blocksOf_of_le (n := 16) (by decide) (by decide)
  have htwo := blocksOf_of_le (n := 32) (by decide) (by decide)
  have hnone : blocksOf 0 = 0 := by decide
  refine Ends.bind (((iappend_spec h₁ (i := rootIno) le_rfl (by rw [hino₁, hino]; decide)
    _).imp ?_).mono ?_)
  · rintro _ hno
    refine hno ⟨?_, ?_⟩ <;> simp only [hlen, List.length_nil, Nat.zero_add, hone, hnone] <;> omega
  · rintro s₂ ⟨h₂, hino₂, hfree₂⟩
    simp only [hlen, List.length_nil, Nat.zero_add, hone, hnone] at hfree₂
    refine (((iappend_spec h₂ (i := rootIno) le_rfl (by rw [hino₂, hino₁, hino]; decide)
      _).imp ?_).mono ?_)
    · rintro _ hno
      refine hno ⟨?_, ?_⟩ <;>
        simp only [hlen, update_self, List.length_append, List.length_nil, Nat.zero_add,
          Nat.reduceAdd, hone, htwo] <;> omega
    · rintro s₃ ⟨h₃, hino₃, hfree₃⟩
      simp only [hlen, update_self, List.length_append, List.length_nil, Nat.zero_add,
        Nat.reduceAdd, hone, htwo] at hfree₃
      have hcontent : update (update (fun _ => []) rootIno
          ([] ++ encodeDirent ⟨rootIno, [46]⟩)) rootIno
          (([] ++ encodeDirent ⟨rootIno, [46]⟩) ++ encodeDirent ⟨rootIno, [46, 46]⟩) =
          contentOf [] := by
        funext i
        match i with
        | 0 => simp [contentOf, rootIno]
        | 1 => simp [contentOf, rootIno, direntsOf, direntBytes]
        | k + 2 => simp [contentOf, rootIno]
      simp only [update_self, hcontent] at h₃
      refine ⟨h₃, by rw [hino₃, hino₂, hino₁, hino]; rfl, ?_⟩
      have hused : blocksUsed [] = nmeta + 1 := by decide
      omega

/-! ### The files of the command line -/

structure Input.Fits (f : Input) : Prop where
  slash_notMem : 47 ∉ shortname f.path.1
  opened : f.chunks.isSome
  name_le : f.name.length ≤ dirSiz
  length_le : f.bytes.length ≤ maxFile * bSize

theorem blocksUsed_concat (files : List Input) (f : Input) :
    blocksUsed (files ++ [f]) + blocksOf ((files.length + 2) * direntSize) =
      blocksUsed files + blocksOf ((files.length + 3) * direntSize) + blocksOf f.bytes.length := by
  simp only [blocksUsed, List.length_append, List.length_singleton, List.map_append,
    List.map_singleton, List.sum_append, List.sum_singleton,
    show files.length + 1 + 2 = files.length + 3 from rfl]
  omega

/-- `mkfs` adds one file and its name to the image, or it does not fit. -/
theorem addFile_spec (h : Built done s) (f : Input) (hn : done.length + 2 < area.ninodes) :
    Ends (fun _ => ¬(f.Fits ∧ blocksUsed (done ++ [f]) ≤ fsSize)) (Built (done ++ [f]))
      (addFile s f) := by
  have hused := blocksUsed_concat done f
  have hmono := blocksOf_mono (show (done.length + 2) * direntSize ≤
    (done.length + 3) * direntSize from Nat.mul_le_mul_right _ (by omega))
  have hthree : (done.length + 2) * direntSize + direntSize = (done.length + 3) * direntSize := by
    ring
  rw [addFile]
  split
  · rename_i hslash
    exact fun hfits => hfits.1.slash_notMem hslash
  · split
    · rename_i hchunks
      intro hfits
      have hsome := hfits.1.opened
      rw [hchunks] at hsome
      exact Bool.false_ne_true hsome
    · rename_i chunks hchunks
      have hbytes : (chunks.map Subtype.val).flatten = f.bytes := by rw [Input.bytes, hchunks]; rfl
      dsimp only
      split
      · have hempty : contentOf done s.freeinode = [] := by
          rw [h.freeinode, contentOf, List.getElem?_eq_none le_rfl]
          rfl
        refine Ends.bind (((ialloc_spec h.laid (by rw [h.freeinode]; exact hn) hempty
          (by rw [h.freeinode, if_neg (by simp [rootIno])])).imp fun _ => False.elim).mono ?_)
        rintro ⟨inum, s₁⟩ ⟨hinum, h₁, hino₁, hfree₁⟩
        dsimp only at hinum h₁ hino₁ hfree₁ ⊢
        rw [h.freeinode] at hinum hino₁
        have hentry : (encodeDirent ⟨inum, f.name⟩).length = direntSize := length_encodeDirent _
        have hroot := iappend_spec h₁ (i := rootIno) le_rfl (by rw [hino₁]; simp [rootIno])
          (encodeDirent ⟨inum, f.name⟩)
        simp only [hentry, length_root, hthree] at hroot
        refine Ends.bind ((hroot.imp ?_).mono ?_)
        · rintro _ hno ⟨-, hle⟩
          have hfree := h.freeblock
          refine hno ⟨?_, ?_⟩
          · simp only [area, ninodeblocks, nInodes, ipb, dinodeSize, maxFile, nDirect, nIndirect,
              direntSize, bSize] at *
            omega
          · rw [hthree]
            omega
        · rintro s₂ ⟨h₂, hino₂, hfree₂⟩
          have hne : inum ≠ rootIno := by simp [hinum, rootIno]
          have hfile := appendChunks_spec chunks h₂ (i := inum) (by omega) (by omega)
          have hnil : update (contentOf done) rootIno (contentOf done rootIno ++
              encodeDirent ⟨inum, f.name⟩) inum = [] := by
            rw [update_of_ne hne, hinum, ← h.freeinode, hempty]
          rw [hnil, hbytes] at hfile
          simp only [List.length_nil, Nat.zero_add, List.nil_append] at hfile
          refine (hfile.imp ?_).mono ?_
          · rintro _ hno ⟨hfits, hle⟩
            have hfree := h.freeblock
            have hnone : blocksOf 0 = 0 := by decide
            refine hno ⟨?_, ?_⟩
            · rw [Nat.zero_add]
              exact hfits.length_le
            · rw [Nat.zero_add]
              omega
          · rintro s₃ ⟨h₃, hino₃, hfree₃⟩
            have hnone : blocksOf 0 = 0 := by decide
            have hfree := h.freeblock
            refine ⟨?_, ?_, ?_⟩
            · rw [contentOf_concat, ← hinum]
              exact h₃
            · rw [hino₃, hino₂, hino₁, List.length_append]
              rfl
            · omega
      · rename_i hlen
        exact fun hfits => hlen hfits.1.name_le

theorem blocksUsed_mono (done rest : List Input) : blocksUsed done ≤ blocksUsed (done ++ rest) := by
  have hmono := blocksOf_mono (show (done.length + 2) * direntSize ≤
    ((done ++ rest).length + 2) * direntSize from Nat.mul_le_mul_right _ (by simp))
  simp only [blocksUsed, List.map_append, List.sum_append]
  omega

theorem addFiles_spec (rest : List Input) (h : Built done s)
    (hn : (done ++ rest).length + 1 < area.ninodes) :
    Ends (fun _ => ¬((∀ f ∈ rest, f.Fits) ∧ blocksUsed (done ++ rest) ≤ fsSize))
      (Built (done ++ rest)) (rest.foldlM addFile s) := by
  induction rest generalizing done s with
  | nil =>
    rw [List.foldlM_nil, List.append_nil]
    exact h
  | cons f rest ih =>
    have hsplit : done ++ f :: rest = (done ++ [f]) ++ rest := by simp
    rw [List.foldlM_cons, hsplit]
    rw [hsplit] at hn
    refine Ends.bind (((addFile_spec h f ?_).imp ?_).mono ?_)
    · simp only [List.length_append, List.length_singleton] at hn
      omega
    · rintro _ hno ⟨hfits, hle⟩
      exact hno ⟨hfits f (by simp), le_trans (blocksUsed_mono _ _) hle⟩
    · intro s' hs'
      refine (ih hs' hn).imp ?_
      rintro _ hno ⟨hfits, hle⟩
      exact hno ⟨fun g hg => hfits g (by simp [hg]), hle⟩

/-! ### The size of the root directory and the bitmap -/

theorem getBit_zero {n : ℕ} (j : ℕ) : getBit (fun _ => 0 : Bytes n) j = false := by
  simp [getBit, getByte]

theorem getBit_balloc {used : ℕ} (hused : used ≤ bpb) (j : ℕ) :
    getBit ((List.range used).foldl setBit (fun _ => 0 : Block)) j = decide (j < used) := by
  induction used with
  | zero => simpa using getBit_zero j
  | succ used ih =>
    rw [List.range_succ, List.foldl_append, List.foldl_cons, List.foldl_nil,
      getBit_setBit _ (by simp only [bpb] at hused; omega), ih (by omega), ← Bool.decide_or]
    exact decide_eq_decide.mpr (by omega)

/-- The finished image: the files as before, the root directory with a larger size, and a
bitmap with the blocks below `freeblock`. -/
structure Finished (files : List Input) (s' : State) : Prop where
  pool : Pool s' (dinode area s'.image)
  freeinode : s'.freeinode = files.length + 2
  freeblock : s'.freeblock = blocksUsed files
  free : ∀ i < area.ninodes, i = 0 ∨ s'.freeinode ≤ i → (dinode area s'.image i).type = 0
  kind : ∀ i, 1 ≤ i → i < s'.freeinode →
    (dinode area s'.image i).type = if i = rootIno then tDir else tFile
  size : ∀ i, 1 ≤ i → i < s'.freeinode → (dinode area s'.image i).size =
    if i = rootIno then ((contentOf files i).length / bSize + 1) * bSize
    else (contentOf files i).length
  file : ∀ i, 1 ≤ i → i < s'.freeinode →
    IsFile s'.image (dinode area s'.image i) (contentOf files i)
  bitmap : ∀ b < bpb, bit area s'.image b = decide (b < s'.freeblock)
  super : getWords (s'.image 1) 0 sbWords.length = sbWords

/-- The root directory is rounded up, and the bitmap is written. -/
theorem finish_spec (h : Built files s) : Ends (fun _ => False) (Finished files) (finish s) := by
  have hroot : rootIno < s.freeinode := by
    rw [h.freeinode]
    simp [rootIno]
  have hlt : rootIno < area.ninodes := area.root_lt
  have hsize := h.laid.size rootIno le_rfl hroot
  have ht := h.laid.type_ne le_rfl hroot
  generalize hd : ({ dinode area s.image rootIno with
    size := ((dinode area s.image rootIno).size / bSize + 1) * bSize } : Dinode) = d
  have haddrs : d.addrs = (dinode area s.image rootIno).addrs := by rw [← hd]
  have htype : d.type = (dinode area s.image rootIno).type := by rw [← hd]
  have hdsize : d.size = ((contentOf files rootIno).length / bSize + 1) * bSize := by
    rw [← hd, ← hsize]
  have hfits : d.Fits := by
    refine h.laid.pool.fits hlt ht haddrs ?_
    have hlen := length_root files
    have hle := h.laid.freeinode_le
    rw [h.freeinode] at hle
    rw [hdsize, hlen]
    simp only [area, ninodeblocks, nInodes, ipb, dinodeSize, maxFile, nDirect, nIndirect,
      direntSize, bSize] at *
    omega
  have hused : s.freeblock < bpb := by
    have hle := h.laid.pool.le_fsSize
    have : fsSize < bpb := by decide
    omega
  have hlast : sb.bmapstart < nmeta := by decide
  simp only [finish, rinode_eq h.laid.pool.length_eq hlt, bind, Except.bind, hd,
    winode_eq h.laid.pool.length_eq hlt, balloc, if_pos hused, ends_ok]
  have hwrite := wsect_of_lt (s := { s with image := putDinode area s.image rootIno d })
    h.laid.pool.length_eq (hlast.trans (by decide))
  rw [hwrite]
  generalize hmap : ((List.range s.freeblock).foldl setBit fun _ => 0 : Block) = buf
  have hdata (x : ℕ) (hx : nmeta ≤ x) : update (putDinode area s.image rootIno d)
      sb.bmapstart buf x = s.image x := by
    rw [update_of_ne (by omega), putDinode_data _ hlt _ hx]
  have hdinode (j : ℕ) (hj : j < area.ninodes) :
      dinode area (update (putDinode area s.image rootIno d) sb.bmapstart buf) j =
        update (dinode area s.image) rootIno d j := by
    have hle : area.bmapstart ≤ sb.bmapstart := le_rfl
    rw [dinode_update_of_le _ _ hj hle, dinode_putDinode _ _ hfits]
  refine ⟨?_, h.freeinode, h.freeblock, ?_, ?_, ?_, ?_, ?_, ?_⟩
  · refine h.laid.pool.congr ?_ rfl hdata fun j hj q => ?_
    · rfl
    · refine h.laid.pool.owns_eq hdata hj ?_ ?_ q <;>
        simp only [hdinode j hj] <;> by_cases hji : j = rootIno <;> simp [hji, htype, haddrs]
  · intro i hi hfree
    have hne : i ≠ rootIno := by
      rintro rfl
      simp only [rootIno] at *
      omega
    simp only [hdinode i hi, update_of_ne hne]
    exact h.laid.free i hi hfree
  · intro i h1 hi
    rw [← h.laid.kind i h1 hi]
    simp only [hdinode i (lt_of_lt_of_le hi h.laid.freeinode_le)]
    by_cases hji : i = rootIno <;> simp [hji, htype]
  · intro i h1 hi
    simp only [hdinode i (lt_of_lt_of_le hi h.laid.freeinode_le)]
    by_cases hji : i = rootIno
    · subst hji
      rw [update_self, if_pos rfl, hdsize]
    · rw [update_of_ne hji, if_neg hji, h.laid.size i h1 hi]
  · intro i h1 hi
    have hin := lt_of_lt_of_le hi h.laid.freeinode_le
    simp only [hdinode i hin]
    refine h.laid.pool.isFile_congr hin (h.laid.type_ne h1 hi) (h.laid.file i h1 hi) hdata ?_
    by_cases hji : i = rootIno <;> simp [hji, haddrs]
  · intro b hb
    have hblock : area.bblock b = sb.bmapstart := by
      rw [Superblock.bblock, Nat.div_eq_of_lt hb, Nat.zero_add]
      rfl
    dsimp only
    rw [bit, hblock, update_self, ← hmap, Nat.mod_eq_of_lt hb]
    exact getBit_balloc (le_of_lt hused) b
  · have hne := sb_block_lt rootIno
    dsimp only
    rw [update_of_ne (by decide), putDinode, update_of_ne (by omega)]
    exact h.laid.super

theorem main_spec (created : Arg → Bool) (image : Arg) (files : List Input)
    (hn : files.length + 1 < area.ninodes) :
    Ends (fun _ => ¬(created image = true ∧ (∀ f ∈ files, f.Fits) ∧ blocksUsed files ≤ fsSize))
      (Finished files) (main created (some (image, files))) := by
  rw [main]
  split
  · obtain ⟨s, hstart, hs⟩ := start_spec
    rw [hstart]
    refine Ends.bind ?_
    rw [ends_ok]
    refine Ends.bind (((addFiles_spec files hs hn).imp ?_).mono fun s' hs' => ?_)
    · exact fun _ hno hfits => hno hfits.2
    · exact (finish_spec hs').imp fun _ => False.elim
  · rename_i hcreated
    exact fun hfits => hcreated hfits.1

theorem main_ok (created : Arg → Bool) (image : Arg) (files : List Input)
    (hcreated : created image = true) (hfits : ∀ f ∈ files, f.Fits)
    (hn : files.length + 1 < area.ninodes) (hblocks : blocksUsed files ≤ fsSize) :
    ∃ s, main created (some (image, files)) = .ok s ∧ Finished files s := by
  refine Ends.exists_ok ((main_spec created image files hn).imp ?_)
  exact fun _ hno => hno ⟨hcreated, hfits, hblocks⟩

/-! ### How many inodes there are -/

/-- A computation that, if it returns, leaves the counter of inodes at `n`. -/
abbrev Counts (n : ℕ) (x : Except Failure State) : Prop :=
  Ends (fun _ => True) (fun s => s.freeinode = n) x

theorem rsect_any {α : Type} {sec : ℕ} {k : Block → Except Failure α} {Q : α → Prop}
    (h : ∀ buf, Ends (fun _ => True) Q (k buf)) :
    Ends (fun _ => True) Q (rsect s sec >>= k) := by
  rw [rsect]
  split
  · exact h _
  · exact trivial

theorem winode_counts (s : State) (i : ℕ) (d : Dinode) : Counts s.freeinode (winode s i d) :=
  rsect_any fun _ => rfl

theorem blockFor_counts (s : State) (din : Dinode) (fbn : ℕ) :
    Ends (fun _ => True) (fun r => r.2.2.freeinode = s.freeinode) (blockFor s din fbn) := by
  have haddr (k : Fin (nDirect + 1)) : (addrFor s din k).2.freeinode = s.freeinode := by
    rw [addrFor]
    split <;> rfl
  rw [blockFor]
  split
  · exact haddr _
  · refine Ends.bind (rsect_any fun buf => ?_)
    split <;> exact haddr _

theorem appendLoop_counts (fuel : ℕ) (s : State) (din : Dinode) (off : ℕ) (p : List UInt8) :
    Ends (fun _ => True) (fun r => r.2.2.freeinode = s.freeinode)
      (appendLoop fuel s din off p) := by
  induction fuel generalizing s din off p with
  | zero => exact rfl
  | succ fuel ih =>
    rw [appendLoop]
    split
    · refine Ends.bind ?_
      rw [appendRound]
      dsimp only
      split
      · refine Ends.bind ((blockFor_counts s din _).mono fun r hr => rsect_any fun buf => ?_)
        exact (ih _ _ _ _).mono fun q hq => hq.trans hr
      · exact trivial
    · exact rfl

theorem iappend_counts (s : State) (i : ℕ) (p : List UInt8) :
    Counts s.freeinode (iappend s i p) :=
  Ends.bind (rsect_any fun _ => Ends.bind ((appendLoop_counts _ s _ _ p).mono fun r hr =>
    (winode_counts r.2.2 i _).mono fun _ hs => hs.trans hr))

theorem addFile_counts (s : State) (f : Input) : Counts (s.freeinode + 1) (addFile s f) := by
  have hchunks (i : ℕ) (chunks : List Chunk) (s : State) :
      Counts s.freeinode (chunks.foldlM (fun s c => iappend s i c.1) s) := by
    induction chunks generalizing s with
    | nil => exact rfl
    | cons c chunks ih =>
      rw [List.foldlM_cons]
      exact Ends.bind ((iappend_counts s i c.1).mono fun s' hs' =>
        (ih s').mono fun _ h => h.trans hs')
  rw [addFile]
  split
  · exact trivial
  · split
    · exact trivial
    · dsimp only
      split
      · refine Ends.bind (Ends.bind ((winode_counts _ _ _).mono fun s₁ h₁ => ?_))
        refine Ends.bind ((iappend_counts s₁ _ _).mono fun s₂ h₂ => ?_)
        exact (hchunks _ _ s₂).mono fun s₃ h₃ => h₃.trans (h₂.trans h₁)
      · exact trivial

theorem main_counts (created : Arg → Bool) (image : Arg) (files : List Input) :
    Counts (files.length + 2) (main created (some (image, files))) := by
  have hfiles (s : State) : Counts (files.length + s.freeinode) (files.foldlM addFile s) := by
    induction files generalizing s with
    | nil => exact (Nat.zero_add _).symm
    | cons f files ih =>
      rw [List.foldlM_cons]
      refine Ends.bind ((addFile_counts s f).mono fun s' hs' => (ih s').mono fun _ h => ?_)
      rw [h, hs', List.length_cons]
      omega
  rw [main]
  split
  · obtain ⟨s, hstart, hs⟩ := start_spec
    rw [hstart]
    refine Ends.bind ?_
    rw [ends_ok]
    refine Ends.bind ((hfiles s).mono fun s' hs' => ?_)
    refine Ends.bind (rsect_any fun _ => Ends.bind ((winode_counts s' _ _).mono fun s₁ h₁ => ?_))
    rw [balloc]
    split
    · exact h₁.trans (hs'.trans (by rw [hs.freeinode]; rfl))
    · exact trivial
  · exact trivial

/-! ### The kernel reads the image -/

theorem Input.zero_notMem_name (f : Input) : 0 ∉ f.name := by
  have hshort : 0 ∉ shortname f.path.1 := by
    rw [shortname]
    split
    · exact fun h => f.path.2 (List.mem_of_mem_drop h)
    · exact f.path.2
  rw [Input.name, skipUnderscore]
  split
  · exact fun h => hshort (List.mem_of_mem_tail h)
  · exact hshort

theorem direntsOf_fits (hn : files.length + 1 < area.ninodes) (hfits : ∀ f ∈ files, f.Fits) :
    ∀ de ∈ direntsOf files, de.Fits := by
  intro de hde
  simp only [direntsOf, List.mem_cons, List.mem_mapIdx] at hde
  obtain rfl | rfl | ⟨k, hk, rfl⟩ := hde
  · exact ⟨by decide, by decide, by decide⟩
  · exact ⟨by decide, by decide, by decide⟩
  · refine ⟨?_, (hfits _ (List.getElem_mem hk)).name_le, Input.zero_notMem_name _⟩
    have : area.ninodes = 208 := by decide
    dsimp only
    omega

theorem direntsOf_first {k : ℕ} (hk : k < files.length) (hdistinct : (files.map Input.name).Nodup)
    (hdot : files[k].name ≠ [46]) (hdotdot : files[k].name ≠ [46, 46]) {j : ℕ} (hj : j < k + 2)
    (hlt : j < (direntsOf files).length) : (direntsOf files)[j].name ≠ files[k].name := by
  match j with
  | 0 => exact hdot.symm
  | 1 => exact hdotdot.symm
  | j + 2 =>
    simp only [direntsOf, List.getElem_cons_succ, List.getElem_mapIdx]
    intro heq
    have hj' : j < (files.map Input.name).length := by
      rw [List.length_map]
      omega
    have hk' : k < (files.map Input.name).length := by rwa [List.length_map]
    have hnames : (files.map Input.name)[j] = (files.map Input.name)[k] := by simpa using heq
    have := (List.Nodup.getElem_inj_iff hdistinct).mp hnames
    omega

theorem dinode_sb (image : Disk) (i : ℕ) : dinode sb image i = dinode area image i := rfl

/-- The kernel finds every file of the command line under its name and reads its bytes. -/
theorem kernel_reads_files {P : Type} [DecidableEq P] (created : Arg → Bool) (image : Arg)
    (files : List Input) (hcreated : created image = true) (hfits : ∀ f ∈ files, f.Fits)
    (hdots : ∀ f ∈ files, f.name ≠ [46] ∧ f.name ≠ [46, 46])
    (hdistinct : (files.map Input.name).Nodup) (hinodes : files.length + 1 < nInodes)
    (hblocks : blocksUsed files ≤ fsSize) :
    ∃ s, main created (some (image, files)) = .ok s ∧ s.freeblock = blocksUsed files ∧
      getWords (s.image 1) 0 sbWords.length = sbWords ∧
      ∀ k (hk : k < files.length),
        (dinode sb s.image (k + 2)).size = files[k].bytes.length ∧
        (∀ (st : Store) (off n : ℕ), st.disk = s.image → off + n ≤ files[k].bytes.length →
          readiBlocks sb (k + 2) (dinode sb s.image (k + 2)) st (fun _ => true) off n =
            .ok ((n, (files[k].bytes.drop off).take n), dinode sb s.image (k + 2), st)) ∧
        ∀ (p : P) (t : Fs.State P) (dp : Slot), t.store.disk = s.image →
          (t.table dp).copy = dinode sb s.image rootIno →
          (dirlookup dp files[k].name).run (perform sb p) t =
            match t.table.iget (k + 2) with
            | none => .error (.panic .igetNoInodes)
            | some (ip, table) => .ok (some (ip, (k + 2) * direntSize), { t with table }) := by
  have hn : files.length + 1 < area.ninodes := lt_trans hinodes (by decide)
  obtain ⟨s, hmain, hfin⟩ := main_ok created image files hcreated hfits hn hblocks
  have hroot : rootIno < s.freeinode := by
    rw [hfin.freeinode]
    simp [rootIno]
  refine ⟨s, hmain, hfin.freeblock, hfin.super, fun k hk => ?_⟩
  have hki : k + 2 < s.freeinode := by
    rw [hfin.freeinode]
    omega
  have hcontent : contentOf files (k + 2) = files[k].bytes := by
    simp [contentOf, List.getElem?_eq_getElem hk]
  have hsize : (dinode sb s.image (k + 2)).size = files[k].bytes.length := by
    rw [dinode_sb, hfin.size (k + 2) (by omega) hki, if_neg (by simp [rootIno]), hcontent]
  refine ⟨hsize, ?_, ?_⟩
  · intro st off n hdisk hend
    have hfile := (hfin.file (k + 2) (by omega) hki).holds
    rw [← hdisk, hcontent] at hfile
    rw [dinode_sb] at hsize ⊢
    rw [hdisk] at hfile
    exact readi_holds (hdisk ▸ hfile) (k + 2) hend hsize.ge
  · intro p t dp hdisk hcopy
    have hlen := length_direntsOf files
    have hfile := (hfin.file rootIno le_rfl hroot).holds
    have hlists : Lists t dp (direntsOf files) := by
      refine ⟨?_, ?_, direntsOf_fits hn hfits⟩
      · rw [hdisk, hcopy]
        exact hfile
      · rw [hcopy, dinode_sb, hfin.size rootIno le_rfl hroot, if_pos rfl, length_root, hlen]
        simp only [bSize]
        omega
    have hk2 : k + 2 < (direntsOf files).length := by omega
    have hentry : (direntsOf files)[k + 2] = ⟨k + 2, files[k].name⟩ := by
      simp [direntsOf]
    have htype : (t.table dp).copy.type = tDir := by
      rw [hcopy, dinode_sb, hfin.kind rootIno le_rfl hroot, if_pos rfl]
    have hfile := hdots _ (List.getElem_mem hk)
    have hfind : (dirlookup dp files[k].name).run (perform sb p) t = _ :=
      dirlookup_lists hlists htype hk2 (by rw [hentry]; simp) (congrArg Dirent.name hentry)
        fun j hj => direntsOf_first hk hdistinct hfile.1 hfile.2 hj (lt_trans hj hk2)
    rw [hentry] at hfind
    exact hfind

def smallFile : Input := ⟨⟨[97], by decide⟩, some [⟨[104, 105], by decide⟩]⟩

theorem smallFile_fits : smallFile.Fits := ⟨by decide, by decide, by decide, by decide⟩

def imageArg : Arg := ⟨[102], by decide⟩

theorem kernel_reads_small_file :
    ∃ s, main (fun _ => true) (some (imageArg, [smallFile])) = .ok s ∧
      ∀ st : Store, st.disk = s.image →
        readiBlocks sb 2 (dinode sb s.image 2) st (fun _ => true) 0 2 =
          .ok ((2, [104, 105]), dinode sb s.image 2, st) := by
  obtain ⟨s, hs, -, -, hfiles⟩ := kernel_reads_files (P := Unit) (fun _ => true) imageArg
    [smallFile] rfl (by simpa using smallFile_fits) (by decide) (by decide) (by decide) (by decide)
  exact ⟨s, hs, fun st hst => (hfiles 0 (by decide)).2.1 st 0 2 hst (by decide)⟩

/-! ### Which images are consistent -/

def Numbered (s : State) (i : ℕ) : Prop := 1 ≤ i ∧ i < s.freeinode

structure Consistent (s : State) : Prop where
  in_area : ∀ i, Numbered s i → sb.iblock i < sb.bmapstart
  mapped : ∀ i, Numbered s i → ∀ bn, bn * bSize < (dinode sb s.image i).size →
    ptr s.image (dinode sb s.image i) (dataPos bn) ≠ 0
  distinct : ∀ i j, Numbered s i → Numbered s j → ∀ q r,
    ptr s.image (dinode sb s.image i) q ≠ 0 →
    ptr s.image (dinode sb s.image i) q = ptr s.image (dinode sb s.image j) r → i = j ∧ q = r
  in_range : ∀ i, Numbered s i → ∀ q, ptr s.image (dinode sb s.image i) q ≠ 0 →
    nmeta ≤ ptr s.image (dinode sb s.image i) q ∧ ptr s.image (dinode sb s.image i) q < sb.size
  bitmap : ∀ b < bpb, bit sb s.image b = true ↔
    b < nmeta ∨ ∃ i, Numbered s i ∧ ∃ q, ptr s.image (dinode sb s.image i) q = b

theorem Finished.numbered (h : Finished files s) (hn : files.length + 1 < area.ninodes) {i : ℕ}
    (hi : Numbered s i) : i < area.ninodes ∧ (dinode area s.image i).type ≠ 0 := by
  have hlt := hi.2
  rw [h.freeinode] at hlt
  refine ⟨by omega, ?_⟩
  rw [h.kind i hi.1 hi.2]
  split <;> decide

theorem Finished.consistent (h : Finished files s) (hn : files.length + 1 < area.ninodes)
    (hroot : (files.length + 2) % 64 ≠ 0) : Consistent s where
  in_area i hi := area.iblock_lt (h.numbered hn hi).1
  mapped i hi bn hbn := by
    rw [dinode_sb] at *
    rw [h.size i hi.1 hi.2] at hbn
    rw [(h.file i hi.1 hi.2).data_iff]
    split at hbn
    · subst_vars
      rw [length_root] at hbn ⊢
      simp only [direntSize, bSize] at *
      omega
    · exact hbn
  distinct i j hi hj q r hq heq := by
    have hni := h.numbered hn hi
    have hnj := h.numbered hn hj
    exact ptr_inj_of_owned h.pool.owned hni.1 hni.2 hnj.1 hnj.2 hq heq
  in_range i hi q hq := by
    have hni := h.numbered hn hi
    exact mem_dataBlocks.mp (ptr_mem_of_owned h.pool.owned hni.1 hni.2 hq)
  bitmap b hb := by
    have hmeta := h.pool.nmeta_le
    have hle := h.pool.le_fsSize
    have hbit : bit sb s.image b = decide (b < s.freeblock) := h.bitmap b hb
    rw [hbit, decide_eq_true_eq]
    constructor
    · intro hlt
      by_cases hb' : b < nmeta
      · exact .inl hb'
      · have hmem : b ∈ dataBlocks area := mem_dataBlocks.mpr ⟨not_lt.mp hb', by omega⟩
        obtain ⟨⟨i, q⟩, hq⟩ := (h.pool.owned.used_iff hmem).mp (decide_eq_true hlt)
        obtain ⟨⟨hi, ht⟩, hptr, -⟩ := owns_eq_some.mp hq
        refine .inr ⟨i, ?_, q, hptr⟩
        by_contra hnot
        exact ht (h.free i hi (by simp only [Numbered] at hnot; omega))
    · rintro (hlt | ⟨i, hi, q, rfl⟩)
      · omega
      · have hni := h.numbered hn hi
        by_cases h0 : ptr s.image (dinode sb s.image i) q = 0
        · have hpos : 0 < nmeta := by decide
          omega
        · exact (h.pool.ptr_lt hni.1 hni.2 h0).2

theorem Finished.not_consistent (h : Finished files s) (hroot : (files.length + 2) % 64 = 0) :
    ¬Consistent s := by
  intro hcons
  have hnum : Numbered s rootIno := ⟨le_rfl, by rw [h.freeinode]; simp [rootIno]⟩
  have hsize := h.size rootIno hnum.1 hnum.2
  have hfile := (h.file rootIno hnum.1 hnum.2).data_iff ((contentOf files rootIno).length / bSize)
  rw [if_pos rfl] at hsize
  have hptr := hcons.mapped rootIno hnum ((contentOf files rootIno).length / bSize) (by
    rw [dinode_sb, hsize]
    simp only [bSize]
    omega)
  have hlt := hfile.mp hptr
  rw [length_root] at hlt
  simp only [direntSize, bSize] at hlt
  omega

/-- An image that the program leaves behind with exit status zero is consistent exactly if
its inodes lie in the inode blocks and its root directory does not fill its last block. -/
theorem mkfs_consistent_iff (created : Arg → Bool) (image : Arg) (files : List Input) (s : State)
    (h : main created (some (image, files)) = .ok s) :
    Consistent s ↔ files.length + 1 < ninodeblocks * ipb ∧ (files.length + 2) % 64 ≠ 0 := by
  by_cases hn : files.length + 1 < area.ninodes
  · have hfin : Finished files s := by
      have hmain := main_spec created image files hn
      rw [h] at hmain
      exact hmain
    constructor
    · exact fun hcons => ⟨hn, fun hroot => hfin.not_consistent hroot hcons⟩
    · exact fun hcond => hfin.consistent hn hcond.2
  · refine iff_of_false ?_ fun hcond => hn hcond.1
    intro hcons
    have hcounts := main_counts created image files
    rw [h] at hcounts
    have hino : s.freeinode = files.length + 2 := hcounts
    have hlast := hcons.in_area (files.length + 1) ⟨by omega, by omega⟩
    have hninodes : area.ninodes = 208 := by decide
    have hstart : sb.inodestart = 32 := by decide
    have hend : sb.bmapstart = 45 := by decide
    rw [Superblock.iblock, hstart, hend] at hlast
    simp only [ipb, bSize, dinodeSize] at hlast
    omega

theorem mkfs_one_file_consistent :
    ∃ s, main (fun _ => true) (some (imageArg, [smallFile])) = .ok s ∧ Consistent s := by
  obtain ⟨s, hs, -⟩ := main_ok (fun _ => true) imageArg [smallFile] rfl
    (by simpa using smallFile_fits) (by decide) (by decide)
  exact ⟨s, hs, (mkfs_consistent_iff _ _ _ s hs).mpr (by decide)⟩

/-- With 62 files the root directory has 64 entries, which is one block. -/
theorem mkfs_full_block_inconsistent :
    ∃ s, main (fun _ => true) (some (imageArg, List.replicate 62 smallFile)) = .ok s ∧
      ¬Consistent s := by
  have hblocks : blocksUsed (List.replicate 62 smallFile) ≤ fsSize := by
    have hone : blocksOf smallFile.bytes.length = 1 := by decide
    have hsum : nmeta + blocksOf (64 * direntSize) + 62 ≤ fsSize := by decide
    simpa [blocksUsed, hone] using hsum
  obtain ⟨s, hs, hfin⟩ := main_ok (fun _ => true) imageArg (List.replicate 62 smallFile) rfl
    (fun f hf => List.eq_of_mem_replicate hf ▸ smallFile_fits) 
    (by rw [List.length_replicate]; decide) hblocks
  exact ⟨s, hs, hfin.not_consistent (by rw [List.length_replicate])⟩

end Xv6.Mkfs
