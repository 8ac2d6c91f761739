import Mdencode.Cpp.MdUnzip

/-! The header of an archive, written and read back. -/

namespace Mdencode.Cpp

open Mdencode.Bytes Mdencode.Separated

/-! The sizes of a list of names -/

theorem Registered.length_names_le {registry hashlistvt : List Hashlist}
    (hreg : Registered registry hashlistvt) :
    (getHLvectorsStringNames hashlistvt).length ≤
      ((registry.take (hashlistsize registry)).map fun hash =>
        (ascii hash.name).length + 1).sum := by
  refine le_trans ?_ (hreg.sum_le fun hash => (ascii hash.name).length + 1)
  apply (length_join_le _ _).trans_eq
  simp [List.map_map, Function.comp_def, List.sum_map_add]

/-- A registry that archives can be made with: its names are told apart, its rows
go with the tables, and its names are short. -/
structure Sound (registry : List Hashlist) : Prop where
  wellNamed : WellNamed registry
  tabled : Tabled registry
  names_lt : ((registry.take (hashlistsize registry)).map
    fun hash => (ascii hash.name).length + 1).sum < 1000

theorem mdHashlist_sound : Sound mdHashlist :=
  ⟨mdHashlist_wellNamed, mdHashlist_tabled, by decide⟩

theorem mdHashlistNew_sound : Sound mdHashlistNew :=
  ⟨mdHashlistNew_wellNamed, mdHashlistNew_tabled, by decide⟩

/-! The block split -/

section
variable (args : MdzipArgs)

def MdzipArgs.zipBlocksize : ℕ :=
  if args.file.length < args.blocksize then args.file.length else args.blocksize

def MdzipArgs.zipBlockcount : ℕ :=
  (args.file.length + args.zipBlocksize - 1) / args.zipBlocksize

def MdzipArgs.zipRemainder : ℕ :=
  if args.file.length % args.zipBlocksize = 0 then args.zipBlocksize
  else args.file.length % args.zipBlocksize

variable {args}

theorem zipBlocksize_pos (hne : args.file ≠ []) : 0 < args.zipBlocksize := by
  have := List.length_pos_iff.mpr hne
  have := args.one_le_blocksize
  unfold MdzipArgs.zipBlocksize
  split_ifs <;> omega

theorem zipRemainder_pos (hne : args.file ≠ []) : 0 < args.zipRemainder := by
  have := zipBlocksize_pos hne
  unfold MdzipArgs.zipRemainder
  split_ifs <;> omega

theorem zipRemainder_le (hne : args.file ≠ []) : args.zipRemainder ≤ args.zipBlocksize := by
  have := Nat.mod_lt args.file.length (zipBlocksize_pos hne)
  unfold MdzipArgs.zipRemainder
  split_ifs <;> omega

/-- The full blocks and the last one make up the file. -/
theorem length_file_eq (hne : args.file ≠ []) :
    0 < args.zipBlockcount ∧
      args.file.length = (args.zipBlockcount - 1) * args.zipBlocksize + args.zipRemainder :=
  length_eq_blocks (List.length_pos_iff.mpr hne) (zipBlocksize_pos hne)

/-- An empty file gets no archive. -/
theorem file_ne_nil_of_mdzipfile {world : ZipWorld} {archive : List UInt8}
    (hzip : mdzipfile world args = .ok (some archive)) : args.file ≠ [] := by
  intro hnil
  rw [mdzipfile, hnil] at hzip
  simp at hzip

theorem mdzipfile_eq (world : ZipWorld) (hne : args.file ≠ []) :
    mdzipfile world args =
      .ok (some (writeHeader args (chooseVersion args.inc args.dec).1 args.zipBlocksize
          (args.hclfile world) (args.hclblock world) ++
        mdzipBlocks world.lib (chooseVersion args.inc args.dec).2 args.zipBlocksize args.modsize
          args.zipRemainder args.zipBlockcount args.file (args.hclblock world))) := by
  have hlen := (List.length_pos_iff.mpr hne).ne'
  have hpos := zipBlocksize_pos hne
  unfold mdzipfile
  dsimp only
  change (if args.file.length = 0 then _ else
    (calcFileBlocks args.file.length args.zipBlocksize).bind fun blockcount =>
      (calcFileBlocksRemainder args.file.length args.zipBlocksize).bind fun blockremainder =>
        .ok (some (_ ++ mdzipBlocks _ _ args.zipBlocksize _ blockremainder.toNat
          blockcount.toNat _ _))) = _
  rw [if_neg hlen, calcFileBlocks_natCast hpos, calcFileBlocksRemainder_natCast hpos]
  rfl

end

/-! The lists of a header -/

section
variable {registry : List Hashlist}

theorem readNames_writeNames {hclsize : List UInt8} {buf : ℕ → List UInt8}
    (hsize : hclsize.length = 4) (hbuf : ∀ n, (buf n).length = n) {names : List UInt8}
    (h : names.length < 1000) (rest : List UInt8) :
    readNames hclsize buf (IStream.ofBytes (writeNames names ++ rest)) =
      .ok (names.length, names, IStream.ofBytes rest) := by
  have hvalue : intOfBytes (intBytes 4 names.length) = names.length :=
    intOfBytes_intBytes_of_range (by omega) (by norm_num; omega)
  rw [readNames, writeNames, List.append_assoc, IStream.read_append (by simp [hsize])]
  dsimp only
  rw [hvalue, if_neg (by omega), IStream.read_append (by simp [hbuf])]

theorem eq_nil_of_names (h : Sound registry) {hashlistvt : List Hashlist}
    (hreg : Registered registry hashlistvt)
    (hnames : getHLvectorsStringNames hashlistvt = []) : hashlistvt = [] := by
  rw [← setVectorHLstring_names h.wellNamed hreg, hnames]
  simp [setVectorHLstring, fields, setVectorHL, useStdHashRemoveDup]

theorem hashlistvt_blockContext (world : ZipWorld) (bhlist : List ℤ) (randombh : Bool) :
    (blockContext registry world bhlist randombh).hashlistvt = setVectorHL registry bhlist := by
  unfold blockContext
  split_ifs <;> rfl

/-- The keys follow exactly when their size is not zero. -/
theorem readKeys_writeKeys (h : Sound registry) (world : ZipWorld) (bhlist : List ℤ)
    (randombh : Bool) (memory : Registers) (rest : List UInt8) :
    ∃ hclblock, readKeys (MdHashContextList.new memory (setVectorHL registry bhlist))
        (IStream.ofBytes
          (writeKeys randombh (blockContext registry world bhlist randombh) ++ rest)) =
          (hclblock, IStream.ofBytes rest) ∧
      SameContext (blockContext registry world bhlist randombh) hclblock := by
  have hreg := setVectorHL_registered h.wellNamed bhlist
  have hlist : (blockContext registry world bhlist randombh).hashlistvt = _ :=
    hashlistvt_blockContext world bhlist randombh
  have hnames := hreg.length_names_le.trans_lt h.names_lt
  set hashlistvt := setVectorHL registry bhlist with hset
  have hsize : intOfBytes (intBytes 4 (getHLvectorsStringNames hashlistvt).length) =
      (getHLvectorsStringNames hashlistvt).length :=
    intOfBytes_intBytes_of_range (by omega) (by norm_num; omega)
  have hzero : intOfBytes (intBytes 4 0) = 0 := by decide
  have hagree := keysAgree_initialRegisters world.blockMemory memory
  unfold writeKeys
  rw [hlist]
  cases randombh with
  | false =>
    have hcontext : blockContext registry world bhlist false =
        .new world.blockMemory hashlistvt := rfl
    refine ⟨.new memory hashlistvt, ?_, hcontext ▸ ⟨rfl, rfl, hagree⟩⟩
    rw [readKeys, if_neg (by simp), IStream.read_append (by simp)]
    dsimp only
    rw [hzero, if_neg (lt_irrefl _)]
  | true =>
    have hcontext : blockContext registry world bhlist true =
        (MdHashContextList.new world.blockMemory hashlistvt).randomizeKeyList world.random := rfl
    rw [readKeys, if_pos rfl, List.append_assoc, IStream.read_append (by simp)]
    dsimp only
    rw [hsize]
    split_ifs with hpos
    · rw [hcontext]
      exact readKeyList_writeKeyList (hreg.consistent h.tabled) _ _ _ _
    · -- without signatures there are no keys either
      have hnil : hashlistvt = [] :=
        eq_nil_of_names h hreg (List.length_eq_zero_iff.mp (by omega))
      rw [hcontext, hnil]
      exact ⟨_, rfl, rfl, rfl, fun c hc =>
        (congrFun (Memory.overlay_nil world.random _) c).trans (hagree c hc)⟩

end

/-! The header -/

theorem MdzipArgs.fileExtension_mdzipname (args : MdzipArgs) :
    fileExtension args.mdzipname = ascii "mdz" := fileExtension_mdz args.filename_ne

section
variable {args : MdzipArgs}

theorem hashlistvt_hclfile (world : ZipWorld) :
    (args.hclfile world).hashlistvt = setVectorHL mdHashlist args.fhlist := rfl

theorem hashlistvt_hclblock (world : ZipWorld) :
    (args.hclblock world).hashlistvt = setVectorHL mdHashlist args.bhlist :=
  hashlistvt_blockContext world args.bhlist args.randombh

/-- The header a reader finds in an archive. -/
theorem readHeader_writeHeader (world : ZipWorld) (memory : UnzipMemory) (hne : args.file ≠ [])
    (version : ℕ) (rest : List UInt8) :
    ∃ header, readHeader memory (IStream.ofBytes (writeHeader args version args.zipBlocksize
        (args.hclfile world) (args.hclblock world) ++ rest)) =
          .ok (header, IStream.ofBytes rest) ∧
      header.mdversion = toLE 8 version ∧ header.blocksize = args.zipBlocksize ∧
      header.modsize = args.modsize ∧
      header.hclfilesize = (getHLvectorsStringNames (setVectorHL mdHashlist args.fhlist)).length ∧
      header.hclblocksize = (getHLvectorsStringNames (setVectorHL mdHashlist args.bhlist)).length ∧
      header.blockcount = args.zipBlockcount ∧ header.blockremainder = args.zipRemainder ∧
      header.hclfile.hashlistvt = setVectorHL mdHashlist args.fhlist ∧
      SameContext (args.hclblock world) header.hclblock := by
  have hfile := setVectorHL_registered mdHashlist_wellNamed args.fhlist
  have hblock := setVectorHL_registered mdHashlist_wellNamed args.bhlist
  have hsmall := mdHashlist_sound.names_lt
  have hfilenames := hfile.length_names_le
  have hblocknames := hblock.length_names_le
  have hpos := zipBlocksize_pos hne
  have hsize : args.zipBlocksize ≤ args.blocksize := by
    unfold MdzipArgs.zipBlocksize
    split_ifs <;> omega
  have hlen := args.length_lt
  have hle := args.blocksize_le
  have hmod := args.modsize_lt
  have hread₁ : intOfBytes (intBytes 8 args.file.length) = args.file.length :=
    intOfBytes_intBytes_of_range (by omega) (by norm_num; omega)
  have hread₂ : intOfBytes (intBytes 8 args.zipBlocksize) = args.zipBlocksize :=
    intOfBytes_intBytes_of_range (by omega) (by norm_num; omega)
  have hread₃ : intOfBytes (intBytes 4 args.modsize) = args.modsize :=
    intOfBytes_intBytes_of_range (by omega) (by norm_num; omega)
  obtain ⟨hclblock, hkeys, hsame⟩ := readKeys_writeKeys mdHashlist_sound world args.bhlist
    args.randombh memory.blockMemory rest
  rw [writeHeader, writeLists, hashlistvt_hclfile, hashlistvt_hclblock]
  simp only [List.append_assoc]
  unfold readHeader
  rw [IStream.read_append (by simp)]
  dsimp only
  rw [IStream.read_append (by simp)]
  dsimp only
  rw [IStream.read_append (by simp)]
  dsimp only
  rw [IStream.read_append (by simp)]
  dsimp only
  rw [hread₁, hread₂, hread₃, readNames_writeNames (by simp) (by simp) (by omega)]
  simp only [bind, Except.bind]
  rw [readNames_writeNames (by simp) (by simp) (by omega)]
  simp only [calcFileBlocks_natCast hpos, calcFileBlocksRemainder_natCast hpos,
    setVectorHLstring_names mdHashlist_wellNamed hfile,
    setVectorHLstring_names mdHashlist_wellNamed hblock]
  rw [readBlockHashList_append (hashlistvt_hclfile world).symm]
  dsimp only
  rw [MdzipArgs.hclblock, hkeys]
  exact ⟨_, rfl, rfl, rfl, rfl, rfl, rfl, rfl, rfl, rfl, hsame⟩

end

end Mdencode.Cpp
