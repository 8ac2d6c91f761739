import Mdencode.Cpp.MdRecords

/-! The sum of `validateMDzip` against the archive `mdzipfile` writes. The
validator always counts the keys the registry lists for the block hashes; the
encoder writes keys only with `--randbh`, and more of them for `png`. -/

namespace Mdencode.Cpp

open Mdencode.Bytes

/-! Wrapped sums -/

theorem toInt32_spec (x : ℤ) :
    ∃ k, x = toInt32 x + 2 ^ 32 * k ∧ -2 ^ 31 ≤ toInt32 x ∧ toInt32 x < 2 ^ 31 := by
  obtain ⟨k, hk⟩ := @Int.dvd_self_sub_bmod x (2 ^ 32)
  have hlo := @Int.le_bmod x (2 ^ 32) (by norm_num)
  have hhi := @Int.bmod_lt x (2 ^ 32) (by norm_num)
  refine ⟨k, ?_, ?_, ?_⟩
  · have hpow : ((2 ^ 32 : ℕ) : ℤ) = 2 ^ 32 := by norm_num
    rw [hpow] at hk
    rw [toInt32, ← hk]
    ring
  · unfold toInt32
    norm_num at hlo ⊢
    omega
  · unfold toInt32
    norm_num at hhi ⊢
    omega

/-- A sum with the block total wrapped to 32 bits is the length only when
nothing was wrapped and as much was counted as written. -/
theorem wrapped_sum_eq_iff {base counted written total : ℕ}
    (hbase : base < 2 ^ 62) (hcounted : counted < 2 ^ 31) (hwritten : written < 2 ^ 31)
    (htotal : total < 2 ^ 63) :
    ((base : ℤ) + counted + toInt32 total) % 2 ^ 64 = (base + written + total : ℕ) ↔
      counted = written ∧ total < 2 ^ 31 := by
  obtain ⟨k, hk, hlo, hhi⟩ := toInt32_spec total
  constructor
  · intro heq
    have hk0 : k = 0 := by
      omega
    subst hk0
    omega
  · rintro ⟨rfl, hlt⟩
    rw [toInt32_of_range (by omega) (by omega)]
    omega

theorem ok_ite_eq_zero_iff (p : Prop) [Decidable p] :
    (Except.ok (if p then 0 else 1) : Except Trap ℕ) = .ok 0 ↔ p := by
  split_ifs with h <;> simp [h]

/-! The keys counted and the keys written -/

section
variable {hashlistvt : List Hashlist}

/-- `png` writes four bytes more than the registry says. -/
theorem keySpans_png {hash : Hashlist} (h : hash ∈ mdHashlist.take (hashlistsize mdHashlist)) :
    ((keySpans hash.signature).map Span.length).sum =
      hash.keysize + if hash.signature = .png then 4 else 0 := by
  have hrows : ∀ hash ∈ mdHashlist.take (hashlistsize mdHashlist),
      ((keySpans hash.signature).map Span.length).sum =
        hash.keysize + if hash.signature = .png then 4 else 0 := by decide
  exact hrows hash h

theorem keyBytes_eq_iff
    (hmem : ∀ hash ∈ hashlistvt, hash ∈ mdHashlist.take (hashlistsize mdHashlist)) :
    calcBlockKeySize hashlistvt = keyBytes hashlistvt ↔
      ∀ hash ∈ hashlistvt, hash.signature ≠ .png := by
  have hsum : keyBytes hashlistvt = calcBlockKeySize hashlistvt +
      (hashlistvt.map fun hash => if hash.signature = .png then 4 else 0).sum := by
    rw [keyBytes, calcBlockKeySize, ← List.sum_map_add]
    exact congrArg List.sum (List.map_congr_left fun hash h => keySpans_png (hmem hash h))
  rw [hsum, left_eq_add, List.sum_eq_zero_iff]
  simp

theorem calcBlockKeySize_eq_zero_iff :
    calcBlockKeySize hashlistvt = 0 ↔ ∀ hash ∈ hashlistvt, hash.keysize = 0 := by
  rw [calcBlockKeySize, List.sum_eq_zero_iff]
  simp

end

theorem calcBlockSize_lt {hashlistvt : List Hashlist} (hreg : Registered mdHashlist hashlistvt) :
    calcBlockSize hashlistvt < 1000 := by
  have hbound :
      ((mdHashlist.take (hashlistsize mdHashlist)).map Hashlist.blocksize).sum < 1000 := by
    decide
  exact (hreg.sum_le Hashlist.blocksize).trans_lt hbound

/-! The archive of `mdzip` and `mdzipsip40` -/

/-- The validator accepts the archive that the encoder writes. -/
def Validates (world : ZipWorld) (memory : UnzipMemory) (args : MdzipArgs) : Prop :=
  ∃ archive, mdzipfile world args = .ok (some archive) ∧
    validateMDzip memory args.mdzipname archive = .ok 0

section
variable {args : MdzipArgs}

/-- Nothing in a header is large. -/
theorem sizes_lt (args : MdzipArgs) : args.headerSize < 10000 ∧
    calcBlockKeySize args.blockList < 1000 ∧ calcBlockSize args.blockList < 1000 := by
  have hfile := args.registered_fileList
  have hblock := args.registered_blockList
  have hnames₁ := hfile.length_names_le
  have hnames₂ := hblock.length_names_le
  have hdigests₁ := calcBlockSize_lt hfile
  have hdigests₂ := calcBlockSize_lt hblock
  have hkeys := hblock.sum_le Hashlist.keysize
  have hwritten := hblock.sum_le fun hash => ((keySpans hash.signature).map Span.length).sum
  have hbounds : ((mdHashlist.take (hashlistsize mdHashlist)).map Hashlist.keysize).sum < 1000 ∧
      ((mdHashlist.take (hashlistsize mdHashlist)).map fun hash =>
        ((keySpans hash.signature).map Span.length).sum).sum < 1000 := by decide
  have hsmall := mdHashlist_sound.names_lt
  have hchoice : (if args.randombh then keyBytes args.blockList else 0) < 1000 := by
    unfold keyBytes
    split_ifs <;> omega
  unfold MdzipArgs.headerSize calcBlockKeySize
  omega

/-- The validator's 32-bit record size has room for any record. -/
theorem toInt32_recordSize :
    toInt32 (toInt32 (calcBlockSize args.blockList + calcModulusBytes args.modsize) +
      if (args.zipBlocksize : ℤ) > 32 then 4 else 1) = args.recordSize := by
  obtain ⟨-, -, hsize⟩ := sizes_lt args
  have hmod := args.modsize_lt
  have hbytes : calcModulusBytes args.modsize = ((args.modsize + 7) / 8 : ℕ) :=
    calcModulusBytes_natCast _
  have hexp : (if (args.zipBlocksize : ℤ) > 32 then 4 else 1 : ℤ) =
      (if args.zipBlocksize > 32 then 4 else 1 : ℕ) := by
    split_ifs <;> omega
  have hle : (if args.zipBlocksize > 32 then 4 else 1 : ℕ) ≤ 4 := by split_ifs <;> omega
  have hinner : toInt32 ((calcBlockSize args.blockList : ℤ) + ((args.modsize + 7) / 8 : ℕ)) =
      calcBlockSize args.blockList + ((args.modsize + 7) / 8 : ℕ) :=
    toInt32_of_range (by omega) (by omega)
  rw [hexp, hbytes, hinner, toInt32_of_range (by omega) (by omega), MdzipArgs.recordSize, hbytes,
    Int.toNat_natCast]
  push_cast
  ring

/-- What the validator does with an archive of the least size or more. -/
theorem validateMDzip_mdzipfile (world : ZipWorld) (memory : UnzipMemory) (hne : args.file ≠ [])
    (hmin : 48 ≤ args.headerSize + args.recordSize * args.zipBlockcount) :
    ∃ archive, mdzipfile world args = .ok (some archive) ∧
      validateMDzip memory args.mdzipname archive =
        (int64 (args.recordSize * args.zipBlockcount : ℕ) >>= fun total =>
          .ok (if (40 + ((getHLvectorsStringNames args.fileList).length : ℤ) +
              (getHLvectorsStringNames args.blockList).length + calcBlockSize args.fileList +
              calcBlockKeySize args.blockList + toInt32 total) % 2 ^ 64 =
                (args.headerSize + args.recordSize * args.zipBlockcount : ℕ) then 0 else 1)) := by
  obtain ⟨archive, hzip, hlength⟩ := mdzipfile_length world hne
  refine ⟨archive, hzip, ?_⟩
  rw [mdzipfile_eq world hne, Except.ok.injEq, Option.some.injEq] at hzip
  obtain ⟨header, hread, -, hblocksize, hmodsize, hnames₁, hnames₂, hcount, -, hlist, hsame⟩ :=
    readHeader_writeHeader world memory hne (chooseVersion args.inc args.dec).1
      (mdzipBlocks world.lib (chooseVersion args.inc args.dec).2 args.zipBlocksize args.modsize
        args.zipRemainder args.zipBlockcount args.file (args.hclblock world))
  rw [hzip] at hread
  have hblocks : header.hclblock.hashlistvt = args.blockList :=
    hsame.hashlistvt.symm.trans (hashlistvt_hclblock world)
  rw [validateMDzip, if_neg (by simp [args.fileExtension_mdzipname]), if_neg (by omega), hread,
    ok_bind]
  dsimp only
  rw [hblocks, hmodsize, hblocksize, toInt32_recordSize, hcount, hnames₁, hnames₂, hlist, hlength,
    ← MdzipArgs.fileList, ← MdzipArgs.blockList, Nat.cast_mul]

/-- The encoder writes the keys the validator counts. -/
theorem counted_eq_written_iff (args : MdzipArgs) :
    (calcBlockKeySize args.blockList = if args.randombh then keyBytes args.blockList else 0) ↔
      if args.randombh then ∀ hash ∈ args.blockList, hash.signature ≠ .png
      else ∀ hash ∈ args.blockList, hash.keysize = 0 := by
  split_ifs
  · exact keyBytes_eq_iff args.registered_blockList.mem
  · exact calcBlockKeySize_eq_zero_iff

theorem validates_iff_counted (world : ZipWorld) (memory : UnzipMemory) (hne : args.file ≠ []) :
    Validates world memory args ↔
      (calcBlockKeySize args.blockList = if args.randombh then keyBytes args.blockList else 0) ∧
      args.recordSize * args.zipBlockcount < 2 ^ 31 ∧
      48 ≤ args.headerSize + args.recordSize * args.zipBlockcount := by
  set total := args.recordSize * args.zipBlockcount with htotal
  by_cases hmin : 48 ≤ args.headerSize + total
  · obtain ⟨archive, hzip, hvalidate⟩ := validateMDzip_mdzipfile world memory hne hmin
    have haccept :
        Validates world memory args ↔ validateMDzip memory args.mdzipname archive = .ok 0 := by
      refine ⟨?_, fun h => ⟨archive, hzip, h⟩⟩
      rintro ⟨archive', hzip', h⟩
      rw [hzip, Except.ok.injEq, Option.some.injEq] at hzip'
      exact hzip' ▸ h
    obtain ⟨hheader, hkeys, -⟩ := sizes_lt args
    set written := if args.randombh then keyBytes args.blockList else 0 with hwritten
    set base := 40 + (getHLvectorsStringNames args.fileList).length +
      (getHLvectorsStringNames args.blockList).length + calcBlockSize args.fileList with hbase
    have hsize : args.headerSize = base + written := rfl
    rw [haccept, hvalidate, int64_natCast, ← htotal]
    rcases lt_or_ge total (2 ^ 63) with hrange | hrange
    · have hcast : 40 + ((getHLvectorsStringNames args.fileList).length : ℤ) +
          (getHLvectorsStringNames args.blockList).length + calcBlockSize args.fileList =
            base := by
        rw [hbase]
        push_cast
        ring
      rw [if_pos hrange, ok_bind, ok_ite_eq_zero_iff, hcast, hsize,
        wrapped_sum_eq_iff (by omega) (by omega) (by omega) hrange]
      exact ⟨fun h => ⟨h.1, h.2, by omega⟩, fun h => ⟨h.1, h.2.1⟩⟩
    · rw [if_neg (by omega)]
      exact iff_of_false (fun h => by cases h) fun h => by omega
  · obtain ⟨archive, hzip, hlength⟩ := mdzipfile_length world hne
    refine iff_of_false ?_ fun h => hmin h.2.2
    rintro ⟨archive', hzip', h⟩
    rw [hzip, Except.ok.injEq, Option.some.injEq] at hzip'
    rw [← hzip', validateMDzip, if_neg (by simp [args.fileExtension_mdzipname]),
      if_pos (by omega)] at h
    cases h

/-- The archive validates exactly when the keys the registry lists are the keys
written, the records take less than `2 ^ 31` bytes, and the whole takes at least
48. -/
theorem validates_iff (world : ZipWorld) (memory : UnzipMemory) (hne : args.file ≠ []) :
    Validates world memory args ↔
      (if args.randombh then ∀ hash ∈ args.blockList, hash.signature ≠ .png
        else ∀ hash ∈ args.blockList, hash.keysize = 0) ∧
      args.recordSize * args.zipBlockcount < 2 ^ 31 ∧
      48 ≤ args.headerSize + args.recordSize * args.zipBlockcount := by
  rw [validates_iff_counted world memory hne, counted_eq_written_iff]

end

/-- Digests of zeros over memory of zeros. -/
def zeroWorld : ZipWorld where
  lib := { hash := fun _ _ _ _ => 0, fileHash := fun _ _ _ _ => 0 }
  random := fun _ _ => 0
  fileMemory := fun _ _ => 0
  blockMemory := fun _ _ => 0

def zeroMemory : UnzipMemory where
  locals := fun _ _ => 0
  fileMemory := fun _ _ => 0
  blockMemory := fun _ _ => 0
  threadMemory := fun _ _ => 0

theorem one_le_sixtyFour : 1 ≤ 64 := by norm_num

theorem sixtyFour_lt : 64 < 2 ^ 31 := by norm_num

/-- A file of one byte with the options left at their defaults but for the list
of block hashes. -/
def oneByteArgs (bhlist : List ℤ) : MdzipArgs where
  filename := ascii "zero"
  file := [0]
  blocksize := 12
  modsize := 64
  fhlist := []
  bhlist
  randombh := false
  inc := false
  dec := false
  filename_ne := by decide
  one_le_blocksize := by norm_num
  blocksize_le := by norm_num
  one_le_modsize := one_le_sixtyFour
  modsize_lt := sixtyFour_lt
  length_lt := by simp

/-- An unkeyed block hash. -/
theorem validates_iff_md5 : Validates zeroWorld zeroMemory (oneByteArgs [16]) :=
  (validates_iff zeroWorld zeroMemory (by simp [oneByteArgs])).mpr (by decide)

/-- The default block hash has a key, which is not written. -/
theorem default_archive_rejected :
    (oneByteArgs [6]).file ≠ [] ∧ ¬ Validates zeroWorld zeroMemory (oneByteArgs [6]) := by
  refine ⟨by simp [oneByteArgs], ?_⟩
  rw [validates_iff_counted zeroWorld zeroMemory (by simp [oneByteArgs])]
  decide

end Mdencode.Cpp
