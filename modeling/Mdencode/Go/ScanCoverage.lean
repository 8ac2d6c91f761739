import Mdencode.Go.MdZipFile
import Mdencode.Go.ModScanFile

/-! Which goroutine of a block meets the block, and what the goroutines hand to
the hash list on the way. The candidates of goroutine `t` are a stride of the
residue class of the block from the floor of the stored exponent upwards. -/

namespace Mdencode.Go

open Mdencode.Bytes Mdencode.Transition

/-- The goroutine takes its next step, main writes to what they share, or
another goroutine uses a hash object. -/
inductive ScanAct
  | step
  | stopScan
  | resetMatchFound
  | setBlockHash (byteblock : List UInt8)
  | reset (hashName : List UInt8)
  | write (hashName byteblock : List UInt8)

def scanAct : HashContextList × Scan → ScanAct → Option (HashContextList × Scan)
  | (hc, scan), .step =>
    if scan.pc.isRunning then some (scan.hashStep hc, scan.step hc) else none
  | (hc, scan), .stopScan => some (hc, scan.stopScan)
  | (hc, scan), .resetMatchFound => some (hc, scan.resetMatchFound)
  | (hc, scan), .setBlockHash byteblock => some (hc.setBlockHash byteblock, scan)
  | (hc, scan), .reset hashName => some (hc.reset hashName, scan)
  | (hc, scan), .write hashName byteblock => some (hc.write hashName byteblock, scan)

section
variable (m T t : ℕ) (args : ScanArgs)

/-- Goroutine `t` of `T` after its `go` statement. -/
def launched : Scan := (Scan.init args.blocksize m t T).go args

/-- Goroutine `t` when it enters the loop. -/
def begun : Scan := decode ((launched m T t args).md.modulusScanFileBytesOrig args)

def candidate (i : ℕ) : ℕ :=
  (begun m T t args).md.modulusStart + i * (begun m T t args).md.modulusThreadCount

/-- Goroutine `t` gets as far as candidate `k`; the first one is not compared
with the ceiling. -/
def Tests (k : ℕ) : Prop :=
  (k = 0 ∨ candidate m T t args k ≤ 2 ^ (args.modSize.toNat + 1)) ∧
    candidate m T t args k < 256 ^ args.blocksize

end

section
variable {m T t : ℕ} {args : ScanArgs}

theorem begun_md : (begun m T t args).md =
    { DecodeData.init args.blocksize m t T with
      modExp := args.modSize.toNat
      modulusBigInt := 2 ^ m
      modulusThreadCount := 2 ^ m * T
      modulusStart := args.modRemainder + 2 ^ m * t +
        convertFloorBase2 (2 ^ args.modSize.toNat) (2 ^ m) } := rfl

theorem candidate_zero : candidate m T t args 0 = (begun m T t args).md.modulusStart := by
  simp [candidate]

theorem candidate_succ (i : ℕ) :
    candidate m T t args (i + 1) = candidate m T t args i + 2 ^ m * T := by
  rw [candidate, candidate, begun_md]; ring

theorem candidate_eq (i : ℕ) : candidate m T t args i =
    Stride.visit (args.modRemainder + convertFloorBase2 (2 ^ args.modSize.toNat) (2 ^ m)) (2 ^ m)
      T t i := by
  rw [candidate, begun_md, Stride.visit]; ring

theorem candidate_mono {i j : ℕ} (h : i ≤ j) :
    candidate m T t args i ≤ candidate m T t args j := by
  rw [candidate_eq, candidate_eq]
  exact Stride.visit_mono h

/-- For powers of two the floor is a multiple of the modulus after all. -/
theorem convertFloorBase2_two_pow (e m : ℕ) :
    convertFloorBase2 (2 ^ e) (2 ^ m) = if m ≤ e then 2 ^ e else 0 := by
  simp only [convertFloorBase2]
  split_ifs with hmod hle hle
  · rfl
  · have hlt : 2 ^ e < 2 ^ m := Nat.pow_lt_pow_right (by norm_num) (by omega)
    rw [Nat.mod_eq_of_lt hlt] at hmod
    exact absurd hmod (by positivity)
  · exact absurd (Nat.mod_eq_zero_of_dvd (pow_dvd_pow 2 hle)) hmod
  · exact Nat.sub_self _

theorem dvd_convertFloorBase2 (e m : ℕ) : 2 ^ m ∣ convertFloorBase2 (2 ^ e) (2 ^ m) := by
  rw [convertFloorBase2_two_pow]
  split_ifs with hle
  · exact pow_dvd_pow 2 hle
  · exact dvd_zero _

/-- A block lies a number of moduli above the floor of every exponent up to its own. -/
theorem block_eq_floor_add {b e : ℕ} (hm : 1 ≤ m) (he : e ≤ logN b 2) :
    b = b % 2 ^ m + convertFloorBase2 (2 ^ e) (2 ^ m) +
      (b - convertFloorBase2 (2 ^ e) (2 ^ m)) / 2 ^ m * 2 ^ m := by
  have hfloor : convertFloorBase2 (2 ^ e) (2 ^ m) ≤ b := by
    rw [convertFloorBase2_two_pow]
    split_ifs with hle
    · have hb : b ≠ 0 := by
        rintro rfl
        rw [logN_zero] at he
        omega
      exact (Nat.pow_le_pow_right two_pos he).trans (two_pow_logN_le hb)
    · exact Nat.zero_le b
  obtain ⟨c, hc⟩ := dvd_convertFloorBase2 e m
  rw [hc] at hfloor ⊢
  have hmod : b % 2 ^ m = (b - 2 ^ m * c) % 2 ^ m := by
    conv_lhs => rw [← Nat.sub_add_cancel hfloor, Nat.add_mul_mod_self_left]
  have hsplit := Nat.mod_add_div' (b - 2 ^ m * c) (2 ^ m)
  rw [← hmod] at hsplit
  omega

/-! What every run hands to the hash list -/

/-- What the program counter says about the buffer. -/
def BufferFacts (n : ℕ) (scan : Scan) : Prop :=
  match scan.pc with
  | .copy => PaddedFor scan.buf scan.md.modulusStart
  | .check _ _ _ | .advance =>
    scan.md.modulusStart < 256 ^ n ∧ scan.buf = toBE n scan.md.modulusStart
  | _ => True

/-- The goroutine is at candidate `i` of its loop, or has given up there. -/
structure InLoop (m T t : ℕ) (args : ScanArgs) (i : ℕ) (scan : Scan) : Prop where
  begun : scan.pc.isBegun = true
  step : scan.md.modulusThreadCount = 2 ^ m * T
  blocksize : scan.md.blocksizeInt = args.blocksize
  length : scan.buf.length = args.blocksize
  modceil : scan.modceil = 2 ^ (args.modSize.toNat + 1)
  candidate : scan.md.modulusStart = candidate m T t args i
  inside : scan.pc.isSearching = true → i = 0 ∨ scan.md.modulusStart ≤ scan.modceil
  buffer : BufferFacts args.blocksize scan
  found : scan.md.matchFound = true ∨ scan.pc.seesMatch = true → ∃ k, Tests m T t args k ∧
    scan.md.byteblock = toBE args.blocksize (Go.candidate m T t args k)

/-- The goroutine has not started, or is in its loop or past it. -/
def Searches (m T t : ℕ) (args : ScanArgs) (scan : Scan) : Prop :=
  (scan.pc = .start args ∧ ∃ stop, scan.md = { (launched m T t args).md with stop }) ∨
    ∃ i, InLoop m T t args i scan

/-- The candidate after a step. -/
def Scan.nextIndex (scan : Scan) (i : ℕ) : ℕ := if scan.pc = .advance then i + 1 else i

variable {hc : HashContextList} {scan : Scan} {i : ℕ}

theorem Scan.nextIndex_of_ne (hpc : scan.pc ≠ .advance) (i : ℕ) : scan.nextIndex i = i :=
  if_neg hpc

theorem inLoop_begin (stop : Bool) : InLoop m T t args 0
    (decode (DecodeData.modulusScanFileBytesOrig { (launched m T t args).md with stop } args)) where
  begun := rfl
  step := rfl
  blocksize := rfl
  length := by simp [decode, DecodeData.modulusScanFileBytesOrig]
  modceil := rfl
  candidate := by rw [candidate_zero, begun_md]; rfl
  inside _ := .inl rfl
  buffer := paddedFor_replicate _ _
  found h := by rcases h with h | h <;> cases h

theorem InLoop.buffer_check (h : InLoop m T t args i scan) {op : HashOp} {position start : ℕ}
    (hpc : scan.pc = .check op position start) :
    scan.md.modulusStart < 256 ^ args.blocksize ∧
      scan.buf = toBE args.blocksize scan.md.modulusStart := by
  simpa only [BufferFacts, hpc] using h.buffer

theorem InLoop.copy (h : InLoop m T t args i scan) (hpc : scan.pc = .copy) :
    InLoop m T t args i (scan.step hc) := by
  have hpadded : PaddedFor scan.buf scan.md.modulusStart := by
    simpa only [BufferFacts, hpc] using h.buffer
  have hcopy := copyModulusStart_of_paddedFor hpadded
  rw [h.length, ← h.blocksize] at hcopy
  have hinside := h.inside (by rw [hpc]; rfl)
  have hfound := h.found
  simp only [Scan.step, hpc, hcopy]
  split_ifs with hlt
  · rw [h.blocksize] at hlt ⊢
    exact { h with
      begun := rfl
      length := length_toBE _ _
      inside := fun _ => hinside
      buffer := ⟨hlt, rfl⟩
      found := fun hm => hfound (.inl (hm.resolve_right (by simp [Pc.seesMatch]))) }
  · exact { h with
      begun := rfl
      inside := fun hm => by cases hm
      buffer := trivial
      found := fun hm => hfound (.inl (hm.resolve_right (by simp [Pc.seesMatch]))) }

theorem InLoop.check (h : InLoop m T t args i scan) {op : HashOp} {position start : ℕ}
    (hpc : scan.pc = .check op position start) : InLoop m T t args i (scan.step hc) := by
  have hbuffer := h.buffer_check hpc
  have hinside := h.inside (by rw [hpc]; rfl)
  have hfound := h.found
  simp only [Scan.step, hpc]
  cases hget : hc.blockHashList[position]? with
  | none =>
    -- all positions agree, so that the candidate is what has been found
    exact { h with
      begun := rfl
      inside := fun hm => by cases hm
      buffer := trivial
      found := fun _ => ⟨i, ⟨by rw [← h.candidate, ← h.modceil]; exact hinside,
        by rw [← h.candidate]; exact hbuffer.1⟩, by rw [← h.candidate]; exact hbuffer.2⟩ }
  | some entry =>
    dsimp only
    rcases @HashContextList.afterOp_cases hc entry position start op with
      ⟨op', position', start', heq⟩ | heq
    · rw [heq]
      exact { h with
        begun := rfl
        inside := fun _ => hinside
        buffer := hbuffer
        found := fun hm => hfound (.inl (hm.resolve_right (by simp [Pc.seesMatch]))) }
    · rw [heq]
      exact { h with
        begun := rfl
        inside := fun _ => hinside
        buffer := hbuffer
        found := fun hm => hfound (.inl (hm.resolve_right (by simp [Pc.seesMatch]))) }

theorem InLoop.advance (h : InLoop m T t args i scan) (hpc : scan.pc = .advance) :
    InLoop m T t args (i + 1) (scan.step hc) := by
  have hbuffer : scan.md.modulusStart < 256 ^ args.blocksize ∧
      scan.buf = toBE args.blocksize scan.md.modulusStart := by
    simpa only [BufferFacts, hpc] using h.buffer
  have hnext : scan.md.modulusStart + scan.md.modulusThreadCount =
      Go.candidate m T t args (i + 1) := by
    rw [h.candidate, h.step, candidate_succ]
  have hfound := h.found
  simp only [Scan.step, hpc]
  split_ifs with hover hstop
  · exact { h with
      begun := rfl
      candidate := hnext
      inside := fun hm => by cases hm
      buffer := trivial
      found := fun hm => hfound (.inl (hm.resolve_right (by simp [Pc.seesMatch]))) }
  · exact { h with
      begun := rfl
      candidate := hnext
      inside := fun hm => by cases hm
      buffer := trivial
      found := fun hm => hfound (.inl (hm.resolve_right (by simp [Pc.seesMatch]))) }
  · refine { h with
      begun := rfl
      candidate := hnext
      inside := fun _ => .inr (Nat.le_of_not_lt hover)
      buffer := ?_
      found := fun hm => hfound (.inl (hm.resolve_right (by simp [Pc.seesMatch]))) }
    rw [BufferFacts]
    dsimp only
    rw [hbuffer.2]
    exact (paddedFor_toBE hbuffer.1).mono (Nat.le_add_right _ _)

theorem InLoop.stepped (h : InLoop m T t args i scan) (hc : HashContextList) :
    InLoop m T t args (scan.nextIndex i) (scan.step hc) := by
  have hfound := h.found
  cases hpc : scan.pc with
  | init | start =>
    have hbegun := h.begun
    rw [hpc] at hbegun
    cases hbegun
  | copy =>
    rw [Scan.nextIndex_of_ne (by rw [hpc]; simp)]
    exact h.copy hpc
  | check op position start =>
    rw [Scan.nextIndex_of_ne (by rw [hpc]; simp)]
    exact h.check hpc
  | advance =>
    rw [Scan.nextIndex, if_pos hpc]
    exact h.advance hpc
  | exit =>
    rw [Scan.nextIndex_of_ne (by rw [hpc]; simp)]
    simp only [Scan.step, hpc]
    split_ifs with hmatch
    · exact { h with
        begun := rfl
        inside := fun hm => by cases hm
        buffer := trivial
        found := fun _ => hfound (.inl hmatch) }
    · exact { h with
        begun := rfl
        inside := fun hm => by cases hm
        buffer := trivial
        found := fun hm => hfound (.inl (hm.resolve_right (by simp [Pc.seesMatch]))) }
  | setFileBuffer =>
    rw [Scan.nextIndex_of_ne (by rw [hpc]; simp)]
    simp only [Scan.step, hpc]
    exact { h with
      begun := rfl
      inside := fun hm => by cases hm
      buffer := trivial
      found := fun _ => hfound (.inr (by rw [hpc]; rfl)) }
  | done =>
    rw [Scan.nextIndex_of_ne (by rw [hpc]; simp)]
    simp only [Scan.step, hpc]
    exact { h with
      begun := rfl
      inside := fun hm => by cases hm
      buffer := trivial
      found := fun _ => hfound (.inr (by rw [hpc]; rfl)) }
  | notified | finished =>
    rw [Scan.nextIndex_of_ne (by rw [hpc]; simp)]
    simp only [Scan.step, hpc]
    exact h

theorem Searches.step (h : Searches m T t args scan) (hc : HashContextList) :
    Searches m T t args (scan.step hc) := by
  rcases h with ⟨hpc, stop, hmd⟩ | ⟨i, hi⟩
  · refine .inr ⟨0, ?_⟩
    simp only [Scan.step, hpc, hmd]
    exact inLoop_begin stop
  · exact .inr ⟨_, hi.stepped hc⟩

theorem Searches.stopScan (h : Searches m T t args scan) : Searches m T t args scan.stopScan := by
  rcases h with ⟨hpc, stop, hmd⟩ | ⟨i, hi⟩
  · exact .inl ⟨hpc, true, by rw [Scan.stopScan, DecodeData.stopScan, hmd]⟩
  · exact .inr ⟨i, { hi with }⟩

theorem Searches.resetMatchFound (h : Searches m T t args scan) :
    Searches m T t args scan.resetMatchFound := by
  rcases h with ⟨hpc, stop, hmd⟩ | ⟨i, hi⟩
  · exact .inl ⟨hpc, stop, by rw [Scan.resetMatchFound, DecodeData.resetMatchFound, hmd]; rfl⟩
  · refine .inr ⟨i, { hi with found := fun hm => hi.found (.inr (hm.resolve_left fun h => ?_)) }⟩
    cases h

/-- Who has seen a match has a candidate in its byte block. -/
theorem Searches.found (h : Searches m T t args scan) (hsees : scan.pc.seesMatch = true) :
    ∃ k, Tests m T t args k ∧
      scan.md.byteblock = toBE args.blocksize (candidate m T t args k) := by
  rcases h with ⟨hpc, -⟩ | ⟨i, hi⟩
  · rw [hpc] at hsees
    cases hsees
  · exact hi.found (.inr hsees)

/-- In every run, whatever others do. -/
theorem Searches.of_reach {guard : HashContextList × Scan → ScanAct → Prop}
    {hc₀ : HashContextList} {s : HashContextList × Scan}
    (h : Reach scanAct guard (hc₀, launched m T t args) s) : Searches m T t args s.2 := by
  refine h.invariant (P := fun s => Searches m T t args s.2) (.inl ⟨rfl, false, rfl⟩) ?_
  rintro ⟨hc, scan⟩ a s' hsearches - hstep
  cases a with
  | step =>
    simp only [scanAct] at hstep
    split_ifs at hstep
    obtain rfl := Option.some.inj hstep
    exact Searches.step hsearches hc
  | stopScan =>
    obtain rfl := Option.some.inj hstep
    exact Searches.stopScan hsearches
  | resetMatchFound =>
    obtain rfl := Option.some.inj hstep
    exact Searches.resetMatchFound hsearches
  | setBlockHash | reset | write =>
    obtain rfl := Option.some.inj hstep
    exact hsearches

/-! The goroutine that meets the block -/

/-- The scan at candidate `v`. -/
def Scan.moved (scan : Scan) (pc : Pc) (v : ℕ) (buf : List UInt8) : Scan :=
  { scan with md := { scan.md with modulusStart := v }, pc, buf }

/-- What `mdunzip` hands to the goroutines of a block that `mdzip` has encoded.
The format object of the encoder has the block size 0, so that the exponent is
one byte. -/
def blockArgs (m : ℕ) (block : List UInt8) : ScanArgs :=
  let (modExp, fileBlockModulus) := calculateFileBlockModulus (ofBE block) (2 ^ m)
  { modSize := UInt32.ofNat (ofBE (MdFormat.exponentBytes 0 modExp))
    modRemainder := fileBlockModulus
    blocksize := block.length }

/-- How many moduli the block lies above the floor of the exponent in the archive. -/
def moduliAbove (m : ℕ) (block : List UInt8) : ℕ :=
  (ofBE block - convertFloorBase2 (2 ^ (blockArgs m block).modSize.toNat) (2 ^ m)) / 2 ^ m

theorem blockArgs_modSize (m : ℕ) (block : List UInt8) :
    (blockArgs m block).modSize.toNat = logN (ofBE block) 2 % 256 := by
  have hbyte :
      ofBE (MdFormat.exponentBytes 0 (logN (ofBE block) 2)) = logN (ofBE block) 2 % 256 := by
    rw [MdFormat.exponentBytes, if_pos (Nat.zero_le _)]
    simp [ofBE]
  have hlt := Nat.mod_lt (logN (ofBE block) 2) (show 0 < 256 by norm_num)
  rw [blockArgs, calculateFileBlockModulus]
  dsimp only
  rw [hbyte, UInt32.toNat_ofNat_of_lt']
  exact hlt.trans (by decide)

section
variable {block : List UInt8}

/-- One goroutine has the block among its candidates, at one place. -/
theorem candidate_eq_block_iff (hm : 1 ≤ m) (ht : t < T) {i : ℕ} :
    candidate m T t (blockArgs m block) i = ofBE block ↔
      t = Stride.owner T (moduliAbove m block) ∧ i = Stride.position T (moduliAbove m block) := by
  have hblock := @block_eq_floor_add m (ofBE block) (blockArgs m block).modSize.toNat hm
    (by rw [blockArgs_modSize]; exact Nat.mod_le _ _)
  rw [← Stride.visit_eq_iff_owner (pow_pos two_pos m) ht, candidate_eq]
  conv_lhs => rw [hblock]
  rfl

/-- The block is above the ceiling of an exponent that was cut. -/
theorem tests_block_iff {i : ℕ} (hi : candidate m T t (blockArgs m block) i = ofBE block) :
    Tests m T t (blockArgs m block) i ↔ i = 0 ∨ logN (ofBE block) 2 < 256 := by
  have hwidth : ofBE block < 256 ^ (blockArgs m block).blocksize := ofBE_lt block
  rw [Tests, hi, blockArgs_modSize, and_iff_left hwidth]
  apply or_congr Iff.rfl
  rcases Nat.lt_or_ge (logN (ofBE block) 2) 256 with hlt | hge
  · rw [Nat.mod_eq_of_lt hlt]
    exact iff_of_true (lt_two_pow_logN (ofBE block)).le hlt
  · have hb : ofBE block ≠ 0 := by
      intro hzero
      rw [hzero, logN_zero] at hge
      omega
    have hpow : 2 ^ (logN (ofBE block) 2 % 256 + 1) < 2 ^ logN (ofBE block) 2 :=
      Nat.pow_lt_pow_right one_lt_two (by omega)
    have hle := two_pow_logN_le hb
    exact iff_of_false (by omega) (by omega)

end

end

end Mdencode.Go
