import Mdencode.Lib.Memory
import Mdencode.Cpp.Common
import Mdencode.Cpp.HashRegistry

/-! The hash context list of `mdHashContextList.h` over the registers of
`mdRegisters.h`. A register is a cell of bytes, an integer one with its least
significant byte first. The hash functions are a parameter. -/

namespace Mdencode.Cpp

open Mdencode.Bytes

/-- The members of `hash_list` that a key or a digest is kept in. -/
inductive Member
  | city64i | city64seed | crc32seed | crc32i | crc64seed | crc64i | edn224i | fast32i | fast32seed
  | fast64i | fast64seed | fnv32_1i | fnv32a_1i | fnv64_1i | fnv64a_1i | has160i | hw40bi | hw40key
  | hw48bi | hw48key | hw64i | hw64key | met641i | met641seed | met642i | met642seed | md2i | md4i
  | md5i | md6i | md62i | md62key | mx3i | mx3seed | png64i | png64seed | ripe128i | ripe160i
  | ripe256i | ripe320i | sea64i | sea64seed | sha1i | sha256i | sha384i | sha512i | siphash32i
  | sipkey32 | siphash322i | sipkey322 | siphash40i | sipkey40 | siphash48i | sipkey48 | siphash64i
  | sipkey64 | siphash128i | sipkey128 | spooky32i | spookyseed32 | spooky64i | spookyseed64
  | tiger192i | xxhash32i | xxseed32 | xxhash64i | xxseed64 | whp512i | wyhash64i | wyseed64
  | wysecret64
  deriving DecidableEq

inductive HashFunction
  | cityhash64WithSeed | crc32 | crc64 | getEDONR224 | fasthash32 | fasthash64 | fnv32_1 | fnv32_1a
  | fnv64_1 | fnv64_1a | getHAS160 | highwayHash64 | md2 | md4 | md5 | md6Hash | md6FullHash
  | metrohash64_1 | metrohash64_2 | mx3 | pengyhash | getRIPEMD128 | ripemd160 | getRIPEMD256
  | getRIPEMD320 | seahash | siphash | siphash24 | sha1 | sha256 | sha384 | sha512 | spookyHash32
  | spookyHash64 | getTiger | xxHash32 | xxHash64 | whirlpool | wyhash
  deriving DecidableEq

abbrev Registers := Memory Member

/-- The hash functions: byte `k` of the digest of some data under a key. The
second row are those of `mdFilehash.h`, which read a file. -/
structure HashLibrary where
  hash : HashFunction → List UInt8 → List UInt8 → ℕ → UInt8
  fileHash : HashFunction → List UInt8 → List UInt8 → ℕ → UInt8

/-- The initialisers of the keys; the other members have none. -/
def keyDefault : Member → Option (List UInt8)
  | .city64seed | .crc64seed | .fast64seed | .mx3seed | .sea64seed | .spookyseed64 | .xxseed64
  | .wyseed64 => some (toLE 8 100000)
  | .crc32seed | .fast32seed | .met641seed | .met642seed | .png64seed | .spookyseed32
  | .xxseed32 => some (toLE 4 100000)
  | .hw40key | .hw48key | .hw64key => some ([1, 2, 3, 4].flatMap (toLE 8))
  | .md62key | .sipkey32 | .sipkey322 | .sipkey40 | .sipkey48 | .sipkey64 | .sipkey128 =>
    some (List.ofFn fun k : Fin 16 => UInt8.ofNat k)
  | .wysecret64 => some ([0xa0761d6478bd642f, 0xe7037ed1a0b428db, 0x8ebc6af09c88c6e3,
      0x589965cc75374cc3, 0x1d8e4e27c47d124f].flatMap (toLE 8))
  | _ => none

def Member.isKey (c : Member) : Bool := (keyDefault c).isSome

/-- Fresh registers over what the memory happened to hold. -/
def initialRegisters (memory : Registers) : Registers := fun c k =>
  match keyDefault c with
  | some bytes => bytes.getD k 0
  | none => memory c k

/-- What `writeKeyList` writes for a signature and `readKeyList` reads. The
eight bytes of `png` take in the start of the next member. -/
def keySpans : Signature → List (Span Member)
  | .cit64 => [⟨.city64seed, 8⟩]
  | .crc32 => [⟨.crc32seed, 4⟩]
  | .crc64 => [⟨.crc64seed, 8⟩]
  | .fast32 => [⟨.fast32seed, 4⟩]
  | .fast64 => [⟨.fast64seed, 8⟩]
  | .hw40 => [⟨.hw40key, 32⟩]
  | .hw48 => [⟨.hw48key, 32⟩]
  | .hw64 => [⟨.hw64key, 32⟩]
  | .met641 => [⟨.met641seed, 4⟩]
  | .met642 => [⟨.met642seed, 4⟩]
  | .mx3 => [⟨.mx3seed, 8⟩]
  | .png => [⟨.png64seed, 4⟩, ⟨.ripe128i, 4⟩]
  | .sea => [⟨.sea64seed, 8⟩]
  | .sip32 => [⟨.sipkey32, 16⟩]
  | .sip322 => [⟨.sipkey322, 16⟩]
  | .sip40 => [⟨.sipkey40, 16⟩]
  | .sip48 => [⟨.sipkey48, 16⟩]
  | .sip64 => [⟨.sipkey64, 16⟩]
  | .sip128 => [⟨.sipkey128, 16⟩]
  | .spk32 => [⟨.spookyseed32, 4⟩]
  | .spk64 => [⟨.spookyseed64, 8⟩]
  | .xxh32 => [⟨.xxseed32, 4⟩]
  | .xxh64 => [⟨.xxseed64, 8⟩]
  | .wyh => [⟨.wyseed64, 8⟩, ⟨.wysecret64, 40⟩]
  | _ => []

/-- What `randomizeKeyList` assigns for a signature. -/
def randomSpans : Signature → List (Span Member)
  | .png => [⟨.png64seed, 4⟩]
  | signature => keySpans signature

/-- One case of `setByteBlockHashList`: the function, its key, and where its
digest goes. -/
structure Digest where
  function : HashFunction
  key : List (Span Member)
  cell : Member
  length : ℕ
  deriving DecidableEq

def digest : Signature → Option Digest
  | .cit64 => some ⟨.cityhash64WithSeed, [⟨.city64seed, 8⟩], .city64i, 8⟩
  | .crc32 => some ⟨.crc32, [⟨.crc32seed, 4⟩], .crc32i, 4⟩
  | .crc64 => some ⟨.crc64, [⟨.crc64seed, 8⟩], .crc64i, 8⟩
  | .edn224 => some ⟨.getEDONR224, [], .edn224i, 28⟩
  | .fast32 => some ⟨.fasthash32, [⟨.fast32seed, 4⟩], .fast32i, 4⟩
  | .fast64 => some ⟨.fasthash64, [⟨.fast64seed, 8⟩], .fast64i, 8⟩
  | .fnv32 => some ⟨.fnv32_1, [], .fnv32_1i, 4⟩
  | .fnv32a => some ⟨.fnv32_1a, [], .fnv32a_1i, 4⟩
  | .fnv64 => some ⟨.fnv64_1, [], .fnv64_1i, 8⟩
  | .fnv64a => some ⟨.fnv64_1a, [], .fnv64a_1i, 8⟩
  | .has160 => some ⟨.getHAS160, [], .has160i, 20⟩
  | .hw40 => some ⟨.highwayHash64, [⟨.hw40key, 32⟩], .hw40bi, 8⟩
  | .hw48 => some ⟨.highwayHash64, [⟨.hw48key, 32⟩], .hw48bi, 8⟩
  | .hw64 => some ⟨.highwayHash64, [⟨.hw64key, 32⟩], .hw64i, 8⟩
  | .md2 => some ⟨.md2, [], .md2i, 16⟩
  | .md4 => some ⟨.md4, [], .md4i, 16⟩
  | .md5 => some ⟨.md5, [], .md5i, 16⟩
  | .md6 => some ⟨.md6Hash, [], .md6i, 20⟩
  | .md62 => some ⟨.md6FullHash, [⟨.md62key, 16⟩], .md62i, 20⟩
  | .met641 => some ⟨.metrohash64_1, [⟨.met641seed, 4⟩], .met641i, 8⟩
  | .met642 => some ⟨.metrohash64_2, [⟨.met642seed, 4⟩], .met642i, 8⟩
  | .mx3 => some ⟨.mx3, [⟨.mx3seed, 8⟩], .mx3i, 8⟩
  | .png => some ⟨.pengyhash, [⟨.png64seed, 4⟩], .png64i, 8⟩
  | .ripe128 => some ⟨.getRIPEMD128, [], .ripe128i, 16⟩
  | .ripe160 => some ⟨.ripemd160, [], .ripe160i, 20⟩
  | .ripe256 => some ⟨.getRIPEMD256, [], .ripe256i, 32⟩
  | .ripe320 => some ⟨.getRIPEMD320, [], .ripe320i, 40⟩
  | .sea => some ⟨.seahash, [⟨.sea64seed, 8⟩], .sea64i, 8⟩
  | .sip32 => some ⟨.siphash, [⟨.sipkey32, 16⟩], .siphash32i, 16⟩
  | .sip322 => some ⟨.siphash, [⟨.sipkey322, 16⟩], .siphash322i, 16⟩
  | .sip40 => some ⟨.siphash, [⟨.sipkey40, 16⟩], .siphash40i, 16⟩
  | .sip48 => some ⟨.siphash, [⟨.sipkey48, 16⟩], .siphash48i, 16⟩
  | .sip64 => some ⟨.siphash24, [⟨.sipkey64, 16⟩], .siphash64i, 8⟩
  | .sip128 => some ⟨.siphash, [⟨.sipkey128, 16⟩], .siphash128i, 16⟩
  | .sha164 | .sha1128 | .sha1 => some ⟨.sha1, [], .sha1i, 20⟩
  | .sha256 => some ⟨.sha256, [], .sha256i, 32⟩
  | .sha384 => some ⟨.sha384, [], .sha384i, 48⟩
  | .sha512 => some ⟨.sha512, [], .sha512i, 64⟩
  | .spk32 => some ⟨.spookyHash32, [⟨.spookyseed32, 4⟩], .spooky32i, 4⟩
  | .spk64 => some ⟨.spookyHash64, [⟨.spookyseed64, 8⟩], .spooky64i, 8⟩
  | .tiger192 => some ⟨.getTiger, [], .tiger192i, 24⟩
  | .xxh32 => some ⟨.xxHash32, [⟨.xxseed32, 4⟩], .xxhash32i, 4⟩
  | .xxh64 => some ⟨.xxHash64, [⟨.xxseed64, 8⟩], .xxhash64i, 8⟩
  | .wp => some ⟨.whirlpool, [], .whp512i, 64⟩
  | .wyh => some ⟨.wyhash, [⟨.wyseed64, 8⟩, ⟨.wysecret64, 40⟩], .wyhash64i, 8⟩
  | .last => none

/-- The cases of `setFileHashList`, which takes MD5 for both forms of MD6. -/
def fileDigest : Signature → Option Digest
  | .md6 => some ⟨.md5, [], .md6i, 16⟩
  | .md62 => some ⟨.md5, [], .md62i, 16⟩
  | signature => digest signature

/-- The bytes of a digest that an archive holds: `sizeof` of an integer member
or a metrohash, the registered size of any other. -/
def storedLength (hash : Hashlist) : ℕ :=
  match hash.signature with
  | .crc32 | .fast32 | .fnv32 | .fnv32a | .spk32 | .xxh32 => 4
  | .cit64 | .crc64 | .fast64 | .fnv64 | .fnv64a | .hw64 | .met641 | .met642 | .sea | .sip64
  | .spk64 | .xxh64 | .wyh => 8
  | _ => hash.blocksize

/-- The bytes `compareBlockHashList` compares: all of an integer, a constant for
some of the others and the registered size for the rest. -/
def comparedLength (hash : Hashlist) : ℕ :=
  match hash.signature with
  | .crc32 | .fast32 | .fnv32 | .fnv32a | .spk32 | .xxh32 => 4
  | .cit64 | .crc64 | .fast64 | .fnv64 | .fnv64a | .hw64 | .met641 | .met642 | .mx3 | .png
  | .sea | .sip64 | .sha164 | .spk64 | .xxh64 | .wyh => 8
  | .md2 | .md4 | .md5 | .sip128 | .sha1128 => 16
  | .has160 | .md6 | .md62 | .ripe160 | .sha1 => 20
  | .sha256 => 32
  | .sha384 => 48
  | .sha512 | .wp => 64
  | _ => hash.blocksize

/-- What `writeBlockHashList` writes for a signature and `readBlockHashList` reads. -/
def blockSpans (hash : Hashlist) : List (Span Member) :=
  (digest hash.signature).toList.map fun d => ⟨d.cell, storedLength hash⟩

inductive IncrementKey
  | noinc
  | dec
  | inc
  deriving DecidableEq, Repr

/-- The bigint goes back as its magnitude; what does not fit the key is cut off. -/
def incrementByteblock (byteblock : List UInt8) (blocknumber : ℕ) (incrementKey : IncrementKey) :
    List UInt8 :=
  let keyblockInt : ℤ := mpzImport byteblock
  let keyblockInt :=
    match incrementKey with
    | .noinc => keyblockInt
    | .dec => keyblockInt - blocknumber
    | .inc => keyblockInt + blocknumber
  let (bytes, count) := mpzExport keyblockInt.natAbs byteblock
  padBlockBytes count byteblock.length bytes

/-- `mdHashContextList`, with the vector of block hashes as its rows. -/
structure MdHashContextList where
  hashlistvt : List Hashlist
  hregister : Registers
  blocknumber : ℕ

namespace MdHashContextList

variable (lib : HashLibrary) (hcl : MdHashContextList)

def new (memory : Registers) (hashlistvt : List Hashlist) : MdHashContextList :=
  { hashlistvt, hregister := initialRegisters memory, blocknumber := 0 }

def keyListSpans : List (Span Member) := hcl.hashlistvt.flatMap fun hash => keySpans hash.signature

def blockListSpans : List (Span Member) := hcl.hashlistvt.flatMap blockSpans

def writeKeyList : List UInt8 := hcl.hregister.dump hcl.keyListSpans

def readKeyList (nf : IStream) : MdHashContextList × IStream :=
  let (hregister, nf) := hcl.hregister.load hcl.keyListSpans nf
  ({ hcl with hregister }, nf)

/-- `random` is what the random number generator has to offer. -/
def randomizeKeyList (random : Registers) : MdHashContextList :=
  { hcl with
    hregister := Memory.overlay (hcl.hashlistvt.flatMap fun hash => randomSpans hash.signature)
      random hcl.hregister }

def writeBlockHashList : List UInt8 := hcl.hregister.dump hcl.blockListSpans

def readBlockHashList (nf : IStream) : MdHashContextList × IStream :=
  let (hregister, nf) := hcl.hregister.load hcl.blockListSpans nf
  ({ hcl with hregister }, nf)

end MdHashContextList

/-- One digest, stored in its member. -/
def Digest.run (d : Digest) (hash : HashFunction → List UInt8 → List UInt8 → ℕ → UInt8)
    (hregister : Registers) (data : List UInt8) : List UInt8 :=
  (List.range d.length).map (hash d.function (hregister.dump d.key) data)

def digestStep (hash : HashFunction → List UInt8 → List UInt8 → ℕ → UInt8) (data : List UInt8)
    (hregister : Registers) : Option Digest → Registers
  | some d => hregister.store d.cell (d.run hash hregister data)
  | none => hregister

/-- One comparison of `compareBlockHashList`. -/
def compareHash (lib : HashLibrary) (hregister : Registers) (byteblock : List UInt8)
    (hash : Hashlist) : Bool :=
  match digest hash.signature with
  | some d =>
    decide ((d.run lib.hash hregister byteblock).take (comparedLength hash) =
      hregister.fetch ⟨d.cell, comparedLength hash⟩)
  | none => true

namespace MdHashContextList

variable (lib : HashLibrary) (hcl : MdHashContextList)

def setByteBlockHashList (byteblock : List UInt8) : MdHashContextList :=
  { hcl with
    hregister := hcl.hashlistvt.foldl
      (fun hregister hash => digestStep lib.hash byteblock hregister (digest hash.signature))
      hcl.hregister }

def setFileHashList (file : List UInt8) : MdHashContextList :=
  { hcl with
    hregister := hcl.hashlistvt.foldl
      (fun hregister hash => digestStep lib.fileHash file hregister (fileDigest hash.signature))
      hcl.hregister }

def compareBlockHashList (byteblock : List UInt8) : Bool :=
  hcl.hashlistvt.all (compareHash lib hcl.hregister byteblock)

/-- Only these two keys change from block to block. -/
def incrementHashKey (blocknumber : ℕ) (incrementKey : IncrementKey) (hregister : Registers)
    (hash : Hashlist) : Registers :=
  match hash.signature with
  | .sip40 => hregister.store .sipkey40
      (incrementByteblock (hregister.fetch ⟨.sipkey40, 16⟩) blocknumber incrementKey)
  | .sip48 => hregister.store .sipkey48
      (incrementByteblock (hregister.fetch ⟨.sipkey48, 16⟩) blocknumber incrementKey)
  | _ => hregister

def incrementBlockKeyList (incrementKey : IncrementKey) : MdHashContextList :=
  { hcl with
    hregister := hcl.hashlistvt.foldl (incrementHashKey hcl.blocknumber incrementKey)
      hcl.hregister }

def incrementBlockNum (incKey : IncrementKey) : MdHashContextList :=
  let hcl :=
    if 1 ≤ hcl.blocknumber ∧ incKey ≠ .noinc then hcl.incrementBlockKeyList incKey else hcl
  { hcl with blocknumber := hcl.blocknumber + 1 }

end MdHashContextList

end Mdencode.Cpp
