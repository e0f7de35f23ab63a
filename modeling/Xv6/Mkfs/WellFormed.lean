import Xv6.Mkfs.Agree

namespace Xv6.Mkfs

open Function Disk Lib Prog

def Image.num (s : Image) (p : Place) : Word := (boot s.disk : Store sb).num p

structure WellFormed (s : Image) : Prop where
  inodes : ∀ inum < s.freeinode, inum.toNat < sb.ninodes
  area : ∀ p, s.num p ≠ 0 → nmeta ≤ (s.num p).toNat ∧ (s.num p).toNat < sb.size
  once : ∀ p q, s.num p ≠ 0 → s.num p = s.num q → p = q
  bitmap : ∀ b < sb.size, sb.bit s.disk b = decide (b < s.freeblock.toNat)
  full : ∀ i, ∀ bn < ((sb.dinode s.disk i).size.toNat + 511) / 512, ∃ h : bn < 140, s.num (placeOf i bn h) ≠ 0

/-! ## The counter of inodes

It counts the files in every run, whatever the image has become. -/

section Frees

def Frees (n : Word) (s : Image) : Prop := s.freeinode = n

theorem rsect_frees : Triple (Frees n) (rsect b) fun _ => Frees n :=
  Triple.get fun _ _ => .ite (fun _ => .throw) fun _ => .pure fun _ h => h

theorem wsect_frees : Triple (Frees n) (wsect b data) fun _ => Frees n := by
  rintro s _ t h hx
  cases hx
  exact h

theorem bump_frees : Triple (Frees n) bump fun _ => Frees n := by
  rintro s _ t h hx
  cases hx
  exact h

theorem winode_frees : Triple (Frees n) (winode inum ip) fun _ => Frees n :=
  rsect_frees.bind fun _ => wsect_frees

theorem rinode_frees : Triple (Frees n) (rinode inum) fun _ => Frees n :=
  rsect_frees.bind fun _ => .pure fun _ h => h

theorem fillAddr_frees : Triple (Frees n) (fillAddr din k) fun _ => Frees n :=
  .ite (fun _ => bump_frees.bind fun _ => .pure fun _ h => h) fun _ => .pure fun _ h => h

theorem fillEntry_frees : Triple (Frees n) (fillEntry b j) fun _ => Frees n := by
  refine rsect_frees.bind fun _ => .ite (fun _ => ?_) fun _ => .pure fun _ h => h
  exact bump_frees.bind fun _ => wsect_frees.bind fun _ => .pure fun _ h => h

theorem findBlock_frees :
    Triple (Frees n) (findBlock din fbn h) fun _ => Frees n := by
  unfold findBlock
  split
  · exact fillAddr_frees.bind fun _ => .pure fun _ h => h
  · exact fillAddr_frees.bind fun _ => fillEntry_frees.bind fun _ => .pure fun _ h => h

theorem appendLoop_frees :
    Triple (Frees n) (appendLoop fuel din off p) fun _ => Frees n := by
  induction fuel generalizing din off p with
  | zero => exact .pure fun _ h => h
  | succ fuel ih =>
    unfold appendLoop
    refine .ite (fun _ => .pure fun _ h => h) fun _ => ?_
    split
    · exact findBlock_frees.bind fun _ => rsect_frees.bind fun _ => wsect_frees.bind fun _ => ih
    · exact .throw

theorem iappend_frees : Triple (Frees n) (iappend inum p) fun _ => Frees n :=
  rinode_frees.bind fun _ => appendLoop_frees.bind fun _ => winode_frees

theorem ialloc_frees : Triple (Frees n) (ialloc type) fun r t => r = n ∧ Frees (n + 1) t := by
  refine Triple.get fun s hs => ?_
  have hs : s.freeinode = n := hs
  rw [hs]
  refine Triple.bind (Q := fun _ => Frees (n + 1)) (Triple.set rfl) fun _ => ?_
  exact winode_frees.bind fun _ => .pure fun _ h => ⟨rfl, h⟩

theorem reads_frees {reads : List (List Byte)} :
    Triple (Frees n) (reads.forM (iappend inum)) fun _ => Frees n := by
  induction reads with
  | nil => exact .pure fun _ h => h
  | cons p reads ih => exact iappend_frees.bind fun _ => ih

theorem addFile_frees : Triple (Frees n) (addFile rootino f) fun _ => Frees (n + 1) := by
  refine .ite (fun _ => .throw) fun _ => ?_
  split
  · exact .throw
  · refine ialloc_frees.bind fun inum => Triple.and_left fun _ => ?_
    exact iappend_frees.bind fun _ => reads_frees

theorem files_frees {files : List File} :
    Triple (Frees n) (files.forM (addFile rootino)) fun _ => Frees (n + BitVec.ofNat 32 files.length) := by
  induction files generalizing n with
  | nil =>
    refine .pure fun _ h => ?_
    rw [List.length_nil, BitVec.add_zero]
    exact h
  | cons f files ih =>
    refine addFile_frees.bind fun _ => ih.conseq (fun _ h => h) fun _ _ h => ?_
    rw [List.length_cons, Nat.add_comm, BitVec.ofNat_add, ← BitVec.add_assoc]
    exact h

theorem fixRoot_frees : Triple (Frees n) (fixRoot rootino) fun _ => Frees n :=
  rinode_frees.bind fun _ => winode_frees

theorem balloc_frees : Triple (Frees n) (balloc used) fun _ => Frees n :=
  .ite (fun _ => .throw) fun _ => wsect_frees

theorem main_frees {files : List File} :
    Triple (Frees 1) (main files) fun _ => Frees (2 + BitVec.ofNat 32 files.length) := by
  refine ialloc_frees.bind fun rootino => Triple.and_left fun _ => .ite (fun _ => .throw) fun _ => ?_
  refine iappend_frees.bind fun _ => iappend_frees.bind fun _ => files_frees.bind fun _ => ?_
  exact fixRoot_frees.bind fun _ => Triple.get fun _ _ => balloc_frees

end Frees

section Calls

variable {files : List File} {f : File} {s t : Image}

/-- The arguments that `main` accepts: names without a `/`, of files that can be opened. -/
def Readable (f : File) : Prop := 47 ∉ f.name ∧ f.reads.isSome

def fileCalls (inum : Word) (f : File) : List Call :=
  .ialloc .file :: .iappend 1 (dirent inum f.target) :: (f.reads.getD []).map (.iappend inum)

def filesCalls : Word → List File → List Call
  | _, [] => []
  | inum, f :: files => fileCalls inum f ++ filesCalls (inum + 1) files

def mainCalls (files : List File) : List Call :=
  .ialloc .dir :: .iappend 1 (dirent 1 [46]) :: .iappend 1 (dirent 1 [46, 46]) :: filesCalls 2 files

def finish : M Unit := do
  fixRoot 1
  let s ← get
  balloc s.freeblock

theorem forM_append (cs ds : List Call) :
    (cs ++ ds).forM Call.run = cs.forM Call.run >>= fun _ => ds.forM Call.run := List.forM_append

theorem forM_iappend (inum : Word) (reads : List (List Byte)) :
    (reads.map (Call.iappend inum)).forM Call.run = reads.forM (iappend inum) := by
  induction reads with
  | nil => rfl
  | cons p reads ih => exact congrArg (fun x => iappend inum p >>= fun _ => x) ih

theorem ialloc_bind (type : Kind) :
    (ialloc type >>= k) s = (Call.run (.ialloc type) >>= fun _ => k s.freeinode) s := by
  have hrun : (Call.run (.ialloc type) >>= fun _ => k s.freeinode) = ialloc type >>= fun _ => k s.freeinode := by
    simp only [Call.run, Functor.discard, map_const, comp_apply, bind_map_left]
  rw [hrun]
  refine bind_congr rfl fun r t hr => ?_
  rw [(ialloc_frees (n := s.freeinode) s r t rfl hr).1]

theorem run_ialloc_frees :
    Triple (Frees n) (Call.run (.ialloc type)) fun _ => Frees (n + 1) :=
  (ialloc_frees.conseq (fun _ h => h) fun _ _ h => h.2).discard

theorem addFile_eq (hf : Readable f) (s : Image) :
    addFile 1 f s = (fileCalls s.freeinode f).forM Call.run s := by
  obtain ⟨hname, hreads⟩ := hf
  obtain ⟨reads, hreads⟩ := Option.isSome_iff_exists.mp hreads
  unfold addFile fileCalls
  rw [if_neg hname, hreads]
  refine (ialloc_bind .file).trans ?_
  rw [← forM_iappend]
  rfl

theorem files_eq (hfiles : ∀ f ∈ files, Readable f) (s : Image) :
    files.forM (addFile 1) s = (filesCalls s.freeinode files).forM Call.run s := by
  induction files generalizing s with
  | nil => rfl
  | cons f files ih =>
    obtain ⟨hf, hfiles⟩ := List.forall_mem_cons.mp hfiles
    rw [filesCalls, forM_append]
    refine bind_congr (addFile_eq hf s) fun _ t ht => ?_
    rw [ih hfiles, addFile_frees (n := s.freeinode) s _ t rfl ht]

theorem main_eq (hfiles : ∀ f ∈ files, Readable f) :
    main files blank = ((mainCalls files).forM Call.run >>= fun _ => finish) blank := by
  change _ = ((Call.run (.ialloc .dir) >>= fun _ => iappend 1 (dirent 1 [46]) >>= fun _ =>
    iappend 1 (dirent 1 [46, 46]) >>= fun _ => (filesCalls 2 files).forM Call.run) >>= fun _ => finish) blank
  simp only [bind_assoc]
  refine (ialloc_bind .dir).trans (bind_congr rfl fun _ t₁ h₁ => bind_congr rfl fun _ t₂ h₂ => ?_)
  refine bind_congr rfl fun _ t₃ h₃ => bind_congr ?_ fun _ _ _ => rfl
  have hfrees : Frees 2 t₃ :=
    iappend_frees _ _ t₃ (iappend_frees _ _ t₂ (run_ialloc_frees (n := 1) blank _ t₁ rfl h₁) h₂) h₃
  rw [← show t₃.freeinode = 2 from hfrees]
  exact files_eq hfiles t₃

theorem readable_of_ok (h : files.forM (addFile rootino) s = .ok ((), t)) :
    ∀ f ∈ files, Readable f := by
  induction files generalizing s with
  | nil => exact nofun
  | cons f files ih =>
    obtain ⟨_, u, hf, hfiles⟩ := of_bind_ok h
    refine List.forall_mem_cons.mpr ⟨?_, ih hfiles⟩
    unfold addFile at hf
    by_cases hname : 47 ∈ f.name
    · rw [if_pos hname] at hf
      cases hf
    · rw [if_neg hname] at hf
      cases hreads : f.reads with
      | none =>
        rw [hreads] at hf
        cases hf
      | some reads => exact ⟨hname, hreads ▸ rfl⟩

theorem readable_of_main (h : main files blank = .ok ((), s)) : ∀ f ∈ files, Readable f := by
  obtain ⟨rootino, _, _, h⟩ := of_bind_ok h
  split at h
  · cases h
  · obtain ⟨_, _, _, h⟩ := of_bind_ok h
    obtain ⟨_, _, _, h⟩ := of_bind_ok h
    obtain ⟨_, _, hfiles, _⟩ := of_bind_ok h
    exact readable_of_ok hfiles

end Calls

section Contents

variable {inum : Word}

def root : Inum := ⟨1, by decide⟩

theorem valid_iappends (reads : List (List Byte)) (hlt : inum.toNat < next) (hle : next ≤ sb.ninodes)
    (hcs : Valid next cs) : Valid next (reads.map (Call.iappend inum) ++ cs) := by
  induction reads with
  | nil => exact hcs
  | cons p reads ih => exact ⟨hlt.trans_le hle, .inl hlt, ih⟩

theorem toNat_succ (hlt : inum.toNat < sb.ninodes) : (inum + 1).toNat = inum.toNat + 1 := by
  have hlt : inum.toNat < 200 := hlt
  rw [BitVec.toNat_add]
  exact Nat.mod_eq_of_lt (show inum.toNat + 1 < 2 ^ 32 by omega)

theorem valid_filesCalls (hnext : inum.toNat = next) (hpos : 1 ≤ next) (hle : next + files.length ≤ sb.ninodes) :
    Valid next (filesCalls inum files) := by
  induction files generalizing inum next with
  | nil => trivial
  | cons f files ih =>
    rw [List.length_cons] at hle
    have hlt : next < sb.ninodes := by omega
    have hrest : Valid (next + 1) (filesCalls (inum + 1) files) :=
      ih (by rw [toNat_succ (by omega), hnext]) (by omega) (by omega)
    refine ⟨hlt, by decide, .inl (Nat.lt_succ_of_le hpos), ?_⟩
    exact valid_iappends _ (by omega) hlt hrest

theorem appended_iappends_of_ne (reads : List (List Byte)) (h : inum ≠ inumber i) :
    appended (reads.map (Call.iappend inum) ++ cs) i = appended cs i := by
  induction reads with
  | nil => rfl
  | cons p reads ih =>
    rw [List.map_cons, List.cons_append, appended, if_neg h, List.nil_append, ih]

theorem length_dirent (inum : Word) (name : List Byte) : (dirent inum name).length = 16 := by
  simp [dirent]

theorem length_root_files (hpos : 2 ≤ inum.toNat) (hle : inum.toNat + files.length ≤ sb.ninodes) :
    (appended (filesCalls inum files) root).length = 16 * files.length := by
  induction files generalizing inum with
  | nil => rfl
  | cons f files ih =>
    rw [List.length_cons] at hle ⊢
    have hsucc : (inum + 1).toNat = inum.toNat + 1 := toNat_succ (by omega)
    have hne : inum ≠ inumber root := by
      rintro rfl
      exact absurd hpos (by decide)
    have happended : appended (filesCalls inum (f :: files)) root =
        dirent inum f.target ++ appended (filesCalls (inum + 1) files) root := by
      refine (congrArg _ (appended_iappends_of_ne _ hne)).trans ?_
      rfl
    rw [happended, List.length_append, length_dirent, ih (by omega) (by omega)]
    omega

end Contents

theorem valid_mainCalls (h : files.length ≤ 198) : Valid 1 (mainCalls files) :=
  ⟨by decide, by decide, .inl (by decide), by decide, .inl (by decide),
    valid_filesCalls rfl (by decide) (show 2 + files.length ≤ 200 by omega)⟩

theorem length_root (h : files.length ≤ 198) :
    (appended (mainCalls files) root).length = 16 * (files.length + 2) := by
  have hfiles : (appended (filesCalls 2 files) root).length = 16 * files.length :=
    length_root_files (by decide) (show 2 + files.length ≤ 200 by omega)
  have happended : appended (mainCalls files) root =
      dirent 1 [46] ++ (dirent 1 [46, 46] ++ appended (filesCalls 2 files) root) := rfl
  rw [happended, List.length_append, List.length_append, length_dirent, length_dirent, hfiles]
  omega

section Finish

def rounded (ip : Inode) : Inode := { ip with size := (ip.size / 512 + 1) * 512 }

def fixedDisk (s : Image) : Word → Block := sb.setDinode s.disk root (rounded (sb.dinode s.disk root))

def finished (s : Image) : Image :=
  { s with disk := update (fixedDisk s) 58 (bitmap s.freeblock.toInt.toNat) }

theorem finish_eq (h : Inv data s) : finish s = .ok ((), finished s) := by
  have hle := h.le
  have hint : s.freeblock.toInt = s.freeblock.toNat := BitVec.toInt_eq_toNat_of_lt (by omega)
  have hfinish : Finishes (fun _ => False) finish s fun _ t => t = finished s := by
    refine .bind (Q := fun _ t => t = { s with disk := fixedDisk s }) ?_ ?_
    · exact rinode_bind (i := root) (winode_spec (i := root) rfl)
    · rintro _ _ rfl
      refine .get ?_
      unfold balloc
      rw [if_neg (by dsimp only; rw [hint]; omega)]
      exact wsect_spec (by decide) rfl
  obtain ⟨_, t, ht, rfl⟩ := hfinish.exists_ok fun _ => id
  exact ht

theorem disk_finished (s : Image) (h : b ≠ 58) : (finished s).disk b = fixedDisk s b := by
  simp only [finished, update_of_ne h]

theorem dinode_finished (s : Image) (i : Inum) : sb.dinode (finished s).disk i =
    if i = root then rounded (sb.dinode s.disk root) else sb.dinode s.disk i := by
  have hne : sb.iblock i ≠ 58 := by
    intro heq
    have hlt := (toNat_iblock i).2
    rw [heq] at hlt
    exact absurd hlt (by decide)
  rw [Superblock.dinode_congr (disk_finished s hne), fixedDisk]
  split
  · next hi => rw [hi, Superblock.dinode_setDinode_self]
  · next hi => rw [Superblock.dinode_setDinode_of_ne hi]

theorem num_finished (h : Inv data s) (p : Place) : (finished s).num p = s.num p := by
  refine num_eq_of_addrs (fun j => ?_) (fun b hb => ?_) h.holds.area p
  · refine (congrArg Inode.addrs (dinode_finished s j)).trans ?_
    split
    · next hj => rw [hj]; rfl
    · rfl
  · have hne : b ≠ 58 := by
      rintro rfl
      exact absurd hb (by unfold Area; decide)
    exact (disk_finished s hne).trans (setDinode_area hb)

theorem bitmap_succ (n : Nat) : bitmap (n + 1) = update (bitmap n) (Fin.ofNat 512 (n / 8))
    (bitmap n (Fin.ofNat 512 (n / 8)) ||| 1#8 <<< (n % 8)) := by
  rw [bitmap, List.range_succ, List.foldl_append]
  rfl

theorem setBit_bitmap (disk : Word → Block) (hn : n < sb.size) :
    update disk 58 (bitmap (n + 1)) = sb.setBit (update disk 58 (bitmap n)) n true := by
  have hn : n < 1000 := hn
  have hblock : sb.bblock n = 58 := by
    rw [Superblock.bblock, Nat.div_eq_of_lt (by omega)]
    rfl
  rw [Superblock.setBit, hblock, update_self, update_idem, Nat.mod_eq_of_lt (show n < 4096 by omega),
    bitmap_succ]
  rfl

theorem bit_bitmap (disk : Word → Block) (hn : n ≤ sb.size) (hb : b < sb.size) :
    sb.bit (update disk 58 (bitmap n)) b = decide (b < n) := by
  induction n with
  | zero => 
    have hblock : sb.bblock b = 58 := by
      rw [Superblock.bblock, Nat.div_eq_of_lt (show b < 4096 from hb.trans (by decide))]
      rfl
    rw [Superblock.bit, hblock, update_self, bitmap]
    simp [Block.zero]
  | succ n ih =>
    rw [setBit_bitmap disk hn]
    by_cases hbn : b = n
    · rw [hbn, Superblock.bit_setBit_self, decide_eq_true (Nat.lt_succ_self n)]
    · rw [Superblock.bit_setBit_of_ne hn hb hbn, ih (Nat.le_of_succ_le hn)]
      exact decide_eq_decide.mpr (by omega)

theorem size_finished (h : Inv data s) (i : Inum) : (sb.dinode (finished s).disk i).size.toNat =
    if i = root then ((data root).length / 512 + 1) * 512 else (data i).length := by
  rw [dinode_finished]
  split
  · have hsize := h.size root
    have hshort := h.short root
    change (((sb.dinode s.disk root).size / 512 + 1) * 512).toNat = _
    rw [BitVec.toNat_mul, BitVec.toNat_add, BitVec.toNat_udiv, hsize]
    change ((data root).length / 512 + 1) % 2 ^ 32 * 512 % 2 ^ 32 = _
    omega
  · exact h.size i

theorem num_placeOf (h : Inv data s) (hbn : bn < 140) :
    (finished s).num (placeOf i bn hbn) ≠ 0 ↔ 512 * bn < (data i).length := by
  rw [num_finished h]
  refine (h.holds.used _).trans ?_
  rw [InUse, start_placeOf, inum_placeOf]

theorem wellFormed_finished (h : Inv data s) (hfree : s.freeinode.toNat ≤ sb.ninodes) :
    WellFormed (finished s) ↔ (data root).length % 512 ≠ 0 := by
  have hle := h.le
  have hint : s.freeblock.toInt = s.freeblock.toNat := BitVec.toInt_eq_toNat_of_lt (by omega)
  constructor
  · intro hw hmod
    obtain ⟨hbn, hne⟩ := hw.full root ((data root).length / 512) (by
      rw [size_finished h, if_pos rfl]
      omega)
    rw [num_placeOf h] at hne
    omega
  · intro hmod
    refine ⟨fun inum hinum => ?_, fun p hp => ?_, fun p q hp heq => ?_, fun b hb => ?_, fun i bn hbn => ?_⟩
    · exact (BitVec.lt_def.mp hinum).trans_le hfree
    · rw [num_finished h] at hp ⊢
      have hlt := h.holds.num_lt ((h.holds.used p).mp hp)
      exact ⟨h.holds.area p hp, hlt.trans_le hle⟩
    · rw [num_finished h] at hp heq
      rw [num_finished h] at heq
      exact h.holds.num_inj ((h.holds.used p).mp hp) heq
    · refine (bit_bitmap _ ?_ hb).trans ?_
      · rw [hint]
        exact hle
      · rw [hint]
        rfl
    · rw [size_finished h] at hbn
      have hshort := h.short i
      have hlt : 512 * bn < (data i).length := by
        split at hbn
        · next hi =>
          subst hi
          omega
        · omega
      exact ⟨by omega, (num_placeOf h _).mpr hlt⟩

end Finish

theorem exists_main (hfiles : ∀ f ∈ files, Readable f) (hlen : files.length ≤ 198)
    (hfit : ¬ TooMuch (appended (mainCalls files))) : ∃ s, main files blank = .ok ((), s) := by
  obtain ⟨_, t, ht, hinv⟩ := (calls_blank (valid_mainCalls hlen)).exists_ok fun _ => hfit
  refine ⟨finished t, ?_⟩
  rw [main_eq hfiles, bind_ok ht, finish_eq hinv]

theorem freeinode_main (hargc : files.length + 2 < 2 ^ 31)
    (h : main files blank = .ok ((), s)) : s.freeinode.toNat = files.length + 2 := by
  have hfrees : s.freeinode = 2 + BitVec.ofNat 32 files.length := main_frees blank () s rfl h
  rw [hfrees, BitVec.toNat_add, BitVec.toNat_ofNat]
  change (2 + files.length % 2 ^ 32) % 2 ^ 32 = _
  omega

theorem wellFormed_main (hlen : files.length ≤ 198)
    (h : main files blank = .ok ((), s)) : WellFormed s ↔ (files.length + 2) % 32 ≠ 0 := by
  have hfree := freeinode_main (by omega) h
  rw [main_eq (readable_of_main h)] at h
  obtain ⟨_, t, ht, hfinish⟩ := of_bind_ok h
  have hinv : Inv (appended (mainCalls files)) t := (calls_blank (valid_mainCalls hlen)).of_ok ht
  rw [finish_eq hinv] at hfinish
  cases hfinish
  refine (wellFormed_finished hinv ?_).trans ?_
  · exact hfree.trans_le (show files.length + 2 ≤ 200 by omega)
  · rw [length_root hlen]
    omega

theorem mkfs_wellFormed (files : List File) (s : Image) (hargc : files.length + 2 < 2 ^ 31)
    (h : main files blank = .ok ((), s)) :
    WellFormed s ↔ files.length ≤ 198 ∧ (files.length + 2) % 32 ≠ 0 := by
  by_cases hlen : files.length ≤ 198
  · rw [wellFormed_main hlen h, and_iff_right hlen]
  · refine iff_of_false (fun hw => ?_) fun hcond => hlen hcond.1
    have hlt : (200 : Word) < s.freeinode := by
      rw [BitVec.lt_def, freeinode_main hargc h]
      change 200 < _
      omega
    exact absurd (hw.inodes 200 hlt) (by decide)

def readme : List File := [⟨[82], some [List.replicate 512 35, List.replicate 100 36]⟩, ⟨[95, 115, 104], some [[1, 2, 3]]⟩]

theorem mkfs_wellFormed_readme : ∃ s, main readme blank = .ok ((), s) ∧ WellFormed s := by
  have hshort : ∀ i : Inum, (appended (mainCalls readme) i).length ≤ 71680 := by decide +kernel
  have hblocks : blocks (appended (mainCalls readme)) = 4 := by decide +kernel
  have hfiles : ∀ f ∈ readme, Readable f := by
    unfold Readable
    decide +kernel
  obtain ⟨s, hs⟩ := exists_main hfiles (by decide) (not_tooMuch hshort (by rw [hblocks]; decide))
  exact ⟨s, hs, (mkfs_wellFormed readme s (by decide) hs).mpr (by decide)⟩

def thirty : List File := (List.range 30).map fun k => ⟨[BitVec.ofNat 8 (97 + k)], some []⟩

theorem thirty_not_wellFormed : ∃ s, main thirty blank = .ok ((), s) ∧ ¬ WellFormed s := by
  have hshort : ∀ i : Inum, (appended (mainCalls thirty) i).length ≤ 71680 := by decide +kernel
  have hblocks : blocks (appended (mainCalls thirty)) = 1 := by decide +kernel
  have hfiles : ∀ f ∈ thirty, Readable f := by
    unfold Readable
    decide +kernel
  obtain ⟨s, hs⟩ := exists_main hfiles (by decide) (not_tooMuch hshort (by rw [hblocks]; decide))
  exact ⟨s, hs, fun hw => (wellFormed_main (by decide) hs).mp hw (by decide)⟩

end Xv6.Mkfs
