import Mdencode.Lib.Chunks
import Mdencode.Cpp.BlockSignature

/-! The file signatures of `mdFilehash.h`. A hash that only comes as one call is
made of each read of the file and the results are added; the other hashes are
updated with each read. Which bytes the hashes give is a parameter. -/

namespace Mdencode.Cpp

open Mdencode.Bytes Mdencode.Chunks

/-- Byte `k` of what a hash function makes of some data under a key, and of what
it makes of a sequence of updates. -/
structure HashCalls where
  hash : HashFunction → List UInt8 → List UInt8 → ℕ → UInt8
  stream : HashFunction → List UInt8 → List (List UInt8) → ℕ → UInt8

def kReadBufSize : ℕ := 1024 * 16

section
variable (calls : HashCalls)

/-- The value of a hash of `w` bytes. -/
def HashCalls.value (w : ℕ) (function : HashFunction) (key buf : List UInt8) : ℕ :=
  ofLE ((List.range w).map (calls.hash function key buf))

variable (key file : List UInt8)

/-- The loop that updates a context until the end of the file is met. -/
def updateReads (function : HashFunction) : ℕ → UInt8 :=
  calls.stream function key (untilShort kReadBufSize file)

/-- The loop that adds to a result of `w` bytes until the end of the file is met. -/
def addReads (w : ℕ) (function : HashFunction) : ℕ → UInt8 := fun k =>
  (toLE w (wrappedSum (256 ^ w) (calls.value w function key)
    (untilShort kReadBufSize file))).getD k 0

def getFileHashCityhash := addReads calls key file 8 .cityhash64WithSeed
def getFileHashCRC32 := addReads calls key file 4 .crc32
def getFileHashCRC64 := addReads calls key file 8 .crc64
def getFileHashEDONR224 := updateReads calls key file .getEDONR224
def getFileHashFast32 := addReads calls key file 4 .fasthash32
def getFileHashFast64 := addReads calls key file 8 .fasthash64
def getFileHashFNV32 := addReads calls key file 4 .fnv32_1
def getFileHashFNV32A := addReads calls key file 4 .fnv32_1a
def getFileHashFNV64 := addReads calls key file 8 .fnv64_1
def getFileHashFNV64A := addReads calls key file 8 .fnv64_1a
def getFileHashHAS160 := updateReads calls key file .getHAS160
def getFileHashHW64 := addReads calls key file 8 .highwayHash64
def getFileHashMD2 := updateReads calls key file .md2
def getFileHashMD4 := updateReads calls key file .md4
def getFileHashMD5 := updateReads calls key file .md5
def getFileHashMetro64_1 := updateReads calls key file .metrohash64_1

-- both take the class `MetroHash64`
def getFileHashMetro64_2 := updateReads calls key file .metrohash64_1

def getFileHashMX3 := addReads calls key file 8 .mx3
def getFileHashPNG := addReads calls key file 8 .pengyhash
def getFileHashRipe128 := updateReads calls key file .getRIPEMD128
def getFileHashRipe160 := updateReads calls key file .ripemd160
def getFileHashRipe256 := updateReads calls key file .getRIPEMD256
def getFileHashRipe320 := updateReads calls key file .getRIPEMD320
def getFileHashSeahash := addReads calls key file 8 .seahash
def getFileHashSiphash := addReads calls key file 8 .siphash24

/-- A stray semicolon after the test of the loop closes the file in its first pass. -/
def getFileHashSiphash128 : ℕ → UInt8 := calls.hash .siphash key (file.take kReadBufSize)

def getFileHashSHA1 := updateReads calls key file .sha1

/-- The one loop that ends with a read of nothing. -/
def getFileHashSHA256 : ℕ → UInt8 := calls.stream .sha256 key (untilEmpty kReadBufSize file)

def getFileHashSHA384 := updateReads calls key file .sha384
def getFileHashSHA512 := updateReads calls key file .sha512
def getFileHashSpooky32 := addReads calls key file 4 .spookyHash32
def getFileHashSpooky64 := addReads calls key file 8 .spookyHash64
def getFileHashTiger := updateReads calls key file .getTiger
def getFileHashXXH32 := addReads calls key file 4 .xxHash32
def getFileHashXXH64 := addReads calls key file 8 .xxHash64
def getFileHashWP := updateReads calls key file .whirlpool
def getFileHashWyhash := addReads calls key file 8 .wyhash

end

/-- The routine that `setFileHashList` takes for a function. It has none for
the two forms of MD6, which it has MD5 for. -/
def getFileHash (calls : HashCalls) (function : HashFunction) (key file : List UInt8) : ℕ → UInt8 :=
  match function with
  | .cityhash64WithSeed => getFileHashCityhash calls key file
  | .crc32 => getFileHashCRC32 calls key file
  | .crc64 => getFileHashCRC64 calls key file
  | .getEDONR224 => getFileHashEDONR224 calls key file
  | .fasthash32 => getFileHashFast32 calls key file
  | .fasthash64 => getFileHashFast64 calls key file
  | .fnv32_1 => getFileHashFNV32 calls key file
  | .fnv32_1a => getFileHashFNV32A calls key file
  | .fnv64_1 => getFileHashFNV64 calls key file
  | .fnv64_1a => getFileHashFNV64A calls key file
  | .getHAS160 => getFileHashHAS160 calls key file
  | .highwayHash64 => getFileHashHW64 calls key file
  | .md2 => getFileHashMD2 calls key file
  | .md4 => getFileHashMD4 calls key file
  | .md5 | .md6Hash | .md6FullHash => getFileHashMD5 calls key file
  | .metrohash64_1 => getFileHashMetro64_1 calls key file
  | .metrohash64_2 => getFileHashMetro64_2 calls key file
  | .mx3 => getFileHashMX3 calls key file
  | .pengyhash => getFileHashPNG calls key file
  | .getRIPEMD128 => getFileHashRipe128 calls key file
  | .ripemd160 => getFileHashRipe160 calls key file
  | .getRIPEMD256 => getFileHashRipe256 calls key file
  | .getRIPEMD320 => getFileHashRipe320 calls key file
  | .seahash => getFileHashSeahash calls key file
  | .siphash => getFileHashSiphash128 calls key file
  | .siphash24 => getFileHashSiphash calls key file
  | .sha1 => getFileHashSHA1 calls key file
  | .sha256 => getFileHashSHA256 calls key file
  | .sha384 => getFileHashSHA384 calls key file
  | .sha512 => getFileHashSHA512 calls key file
  | .spookyHash32 => getFileHashSpooky32 calls key file
  | .spookyHash64 => getFileHashSpooky64 calls key file
  | .getTiger => getFileHashTiger calls key file
  | .xxHash32 => getFileHashXXH32 calls key file
  | .xxHash64 => getFileHashXXH64 calls key file
  | .whirlpool => getFileHashWP calls key file
  | .wyhash => getFileHashWyhash calls key file

/-- The hash functions of `setByteBlockHashList` with the routines of `mdFilehash.h`. -/
def HashCalls.library (calls : HashCalls) : HashLibrary where
  hash := calls.hash
  fileHash := getFileHash calls

/-! The three families -/

/-- The bytes of the results that are added up. -/
def addedWidth : HashFunction → Option ℕ
  | .crc32 | .fasthash32 | .fnv32_1 | .fnv32_1a | .spookyHash32 | .xxHash32 => some 4
  | .cityhash64WithSeed | .crc64 | .fasthash64 | .fnv64_1 | .fnv64_1a | .highwayHash64 | .mx3
  | .pengyhash | .seahash | .siphash24 | .spookyHash64 | .xxHash64 | .wyhash => some 8
  | _ => none

section
variable {calls : HashCalls} {function : HashFunction} {key file : List UInt8} {w : ℕ}

theorem getFileHash_of_added (h : addedWidth function = some w) :
    getFileHash calls function key file = addReads calls key file w function := by
  cases function <;> cases h <;> rfl

theorem getFileHash_of_updated (h : addedWidth function = none) (hsip : function ≠ .siphash) :
    ∃ updating reads, Function.Injective reads ∧ ∀ calls key file,
      getFileHash calls function key file = calls.stream updating key (reads file) := by
  have hshort := untilShort_injective (α := UInt8) kReadBufSize
  cases function with
  | siphash => exact absurd rfl hsip
  | sha256 =>
    exact ⟨_, _, untilEmpty_injective (by decide : 0 < kReadBufSize), fun _ _ _ => rfl⟩
  | _ => first | exact ⟨_, _, hshort, fun _ _ _ => rfl⟩ | cases h

/-- The signature of 128 bits has read one buffer. -/
theorem getFileHash_siphash_congr {a b : List UInt8}
    (h : a.take kReadBufSize = b.take kReadBufSize) :
    getFileHash calls .siphash key a = getFileHash calls .siphash key b := by
  rw [getFileHash, getFileHash, getFileHashSiphash128, getFileHashSiphash128, h]

end

/-! Which files a signature tells apart -/

theorem map_range_getD (bytes : List UInt8) {n : ℕ} (hn : bytes.length = n) :
    (List.range n).map (fun k => bytes.getD k 0) = bytes := by
  subst hn
  apply List.ext_getElem (by simp)
  intro k hk hk'
  simp [List.getD_eq_getElem?_getD, List.getElem?_eq_getElem hk']

/-- A function with the given values. -/
def callsOf (w : ℕ) (value : List UInt8 → ℕ) : HashCalls where
  hash := fun _ _ buf k => (toLE w (value buf)).getD k 0
  stream := fun _ _ _ _ => 0

theorem value_callsOf (w : ℕ) (value : List UInt8 → ℕ) (function : HashFunction)
    (key buf : List UInt8) :
    (callsOf w value).value w function key buf = value buf % 256 ^ w := by
  rw [HashCalls.value, callsOf, map_range_getD _ (length_toLE w _), ofLE_toLE]

/-- A function that tells one sequence of updates from all others. -/
def callsAt (updates : List (List UInt8)) : HashCalls where
  hash := fun _ _ _ _ => 0
  stream := fun _ _ updates' _ => if updates' = updates then 1 else 0

section
variable {d : Digest} {hregister : Registers} {a b : List UInt8} {w : ℕ}

theorem run_of_added (h : addedWidth d.function = some w) (hlen : d.length = w)
    (calls : HashCalls) (hregister : Registers) (file : List UInt8) :
    d.run (getFileHash calls) hregister file =
      toLE w (wrappedSum (256 ^ w) (calls.value w d.function (hregister.dump d.key))
        (untilShort kReadBufSize file)) := by
  rw [Digest.run, getFileHash_of_added h, hlen]
  exact map_range_getD _ (length_toLE w _)

/-- Added results separate the files that some read counts apart. -/
theorem added_agree_iff (h : addedWidth d.function = some w) (hlen : d.length = w) :
    (∀ calls, d.run (getFileHash calls) hregister a = d.run (getFileHash calls) hregister b) ↔
      SameCounts (256 ^ w) (untilShort kReadBufSize a) (untilShort kReadBufSize b) := by
  have hpos : 0 < 256 ^ w := Nat.pow_pos (by decide)
  rw [← wrappedSum_eq_iff]
  constructor
  · intro hagree value
    have hrun := hagree (callsOf w value)
    rw [run_of_added h hlen, run_of_added h hlen] at hrun
    have hsum := toLE_inj (wrappedSum_lt hpos _ _) (wrappedSum_lt hpos _ _) hrun
    have hvalue : (callsOf w value).value w d.function (hregister.dump d.key) =
        fun buf => value buf % 256 ^ w := funext fun buf => value_callsOf w value _ _ buf
    rwa [hvalue, wrappedSum_mod, wrappedSum_mod] at hsum
  · intro hsum calls
    rw [run_of_added h hlen, run_of_added h hlen, hsum]

theorem updated_separate (h : addedWidth d.function = none) (hsip : d.function ≠ .siphash)
    (hlen : 0 < d.length) (hregister : Registers) (hab : a ≠ b) :
    ∃ calls, d.run (getFileHash calls) hregister a ≠ d.run (getFileHash calls) hregister b := by
  obtain ⟨updating, reads, hinj, hreads⟩ := getFileHash_of_updated h hsip
  refine ⟨callsAt (reads a), fun hrun => ?_⟩
  rw [Digest.run, Digest.run, List.map_inj_left] at hrun
  have hbyte := hrun 0 (List.mem_range.mpr hlen)
  rw [hreads, hreads] at hbyte
  have hne : reads b ≠ reads a := fun heq => hab (hinj heq).symm
  simp [callsAt, hne] at hbyte

end

theorem mdHashlist_fileLength :
    ∀ hash ∈ mdHashlist.take (hashlistsize mdHashlist), ∀ d ∈ fileDigest hash.signature,
      0 < d.length ∧ ∀ w ∈ addedWidth d.function, d.length = w := by decide +kernel

/-- A signature that is made in one run of updates separates any two files. One
that is a sum of hashes separates those for which some read occurs in one more
often than in the other, counted in the bytes of the sum. -/
theorem signature_separates_iff {hash : Hashlist} {d : Digest} {a b : List UInt8}
    (hmem : hash ∈ mdHashlist.take (hashlistsize mdHashlist)) (hd : d ∈ fileDigest hash.signature)
    (hsip : d.function ≠ .siphash) (hregister : Registers) (hab : a ≠ b) :
    (∃ calls, d.run (getFileHash calls) hregister a ≠ d.run (getFileHash calls) hregister b) ↔
      ∀ w ∈ addedWidth d.function,
        ¬ SameCounts (256 ^ w) (untilShort kReadBufSize a) (untilShort kReadBufSize b) := by
  obtain ⟨hpos, hwidth⟩ := mdHashlist_fileLength hash hmem d hd
  cases hadd : addedWidth d.function with
  | none => simp [updated_separate hadd hsip hpos hregister hab]
  | some w =>
    simp only [Option.mem_def, Option.some.injEq, forall_eq']
    rw [← added_agree_iff hadd (hwidth w hadd), not_forall]

def zeroRead : List UInt8 := List.replicate kReadBufSize 0
def oneRead : List UInt8 := List.replicate kReadBufSize 1

theorem zeroRead_ne_oneRead : zeroRead ≠ oneRead := fun h =>
  absurd (List.replicate_right_injective (by decide : kReadBufSize ≠ 0) h) (by decide)

theorem nil_ne_oneRead : [] ≠ oneRead := fun h =>
  absurd (congrArg List.length h) (by rw [oneRead, List.length_replicate]; decide)

/-- The second read occurs in one of the files only. -/
theorem not_sameCounts_reads {m : ℕ} (hm : 1 < m) {first second : List UInt8}
    (hne : first ≠ second) (hnil : [] ≠ second) :
    ¬ SameCounts m [first, first, []] [first, second, []] := by
  intro hcounts
  have hcount := hcounts second
  simp [hne, hnil, Nat.mod_eq_of_lt hm] at hcount

theorem untilShort_two_reads {first second : List UInt8} (hfirst : first.length = kReadBufSize)
    (hsecond : second.length = kReadBufSize) :
    untilShort kReadBufSize (first ++ second) = [first, second, []] := by
  have hpos : 0 < kReadBufSize := by decide
  have hnil : untilShort kReadBufSize ([] : List UInt8) = [[]] := untilShort_of_lt hpos
  have hlast := untilShort_append hpos hsecond []
  rw [List.append_nil] at hlast
  rw [untilShort_append hpos hfirst, hlast, hnil]

/-- Two files of two reads that have the first one in common. -/
theorem signature_separates_reads :
    ∃ calls : HashCalls, (Digest.mk .crc32 [⟨.crc32seed, 4⟩] .crc32i 4).run (getFileHash calls)
        (initialRegisters fun _ _ => 0) (zeroRead ++ zeroRead) ≠
      (Digest.mk .crc32 [⟨.crc32seed, 4⟩] .crc32i 4).run (getFileHash calls)
        (initialRegisters fun _ _ => 0) (zeroRead ++ oneRead) := by
  have hmem : Hashlist.mk .crc32 "crc32" 4 4 ∈ mdHashlist.take (hashlistsize mdHashlist) := by
    decide
  have hzero : zeroRead.length = kReadBufSize := List.length_replicate
  have hone : oneRead.length = kReadBufSize := List.length_replicate
  have hne : zeroRead ++ zeroRead ≠ zeroRead ++ oneRead := fun h =>
    zeroRead_ne_oneRead (List.append_cancel_left h)
  apply (signature_separates_iff hmem rfl (by decide) _ hne).mpr
  intro w hw
  cases hw
  rw [untilShort_two_reads hzero hzero, untilShort_two_reads hzero hone]
  exact not_sameCounts_reads (by norm_num) zeroRead_ne_oneRead nil_ne_oneRead

/-! Two reads the other way round -/

theorem swapped_reads_agree :
    zeroRead ++ oneRead ≠ oneRead ++ zeroRead ∧
      ∀ calls hregister, ∀ d ∈ fileDigest .crc32,
        d.run (getFileHash calls) hregister (zeroRead ++ oneRead) =
          d.run (getFileHash calls) hregister (oneRead ++ zeroRead) := by
  have hzero : zeroRead.length = kReadBufSize := List.length_replicate
  have hone : oneRead.length = kReadBufSize := List.length_replicate
  refine ⟨fun h => zeroRead_ne_oneRead (List.append_inj h (hzero.trans hone.symm)).1, ?_⟩
  rintro calls hregister d ⟨⟩
  refine (added_agree_iff rfl rfl).mpr ?_ calls
  rw [untilShort_two_reads hzero hone, untilShort_two_reads hone hzero]
  exact sameCounts_of_perm _ (List.Perm.swap oneRead zeroRead [[]])

end Mdencode.Cpp
