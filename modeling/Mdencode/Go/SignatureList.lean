import Mdencode.Lib.Bytes

/-! The signature registry of `mdSignatureList.go` and the lists of signature
names in the header of an archive. -/

namespace Mdencode.Go

open Mdencode.Bytes

structure HashList where
  hashName : String
  blockSize : ℕ
  deriving DecidableEq

def hlist : List HashList :=
  [⟨"add32", 4⟩, ⟨"aes8", 8⟩, ⟨"ax", 16⟩, ⟨"blake2", 64⟩, ⟨"blake2b", 32⟩, ⟨"blake2s_128", 16⟩,
    ⟨"blake2s_256", 32⟩, ⟨"bmw", 64⟩, ⟨"crc32", 4⟩, ⟨"crc32c", 4⟩, ⟨"crc32k", 4⟩,
    ⟨"crc64ecma", 8⟩, ⟨"crc64iso", 8⟩, ⟨"ct64", 8⟩, ⟨"cube", 64⟩, ⟨"echo", 64⟩, ⟨"fh32", 4⟩,
    ⟨"fh64", 8⟩, ⟨"fnv32", 4⟩, ⟨"fnv32a", 4⟩, ⟨"fnv64", 8⟩, ⟨"fnv64a", 8⟩, ⟨"fnv128", 16⟩,
    ⟨"fnv128a", 16⟩, ⟨"gost256", 32⟩, ⟨"gost512", 64⟩, ⟨"groest", 64⟩, ⟨"hmac256", 32⟩,
    ⟨"hmac512", 64⟩, ⟨"hw32", 4⟩, ⟨"hw64", 8⟩, ⟨"hw128", 16⟩, ⟨"hw256", 32⟩, ⟨"kekkak", 32⟩,
    ⟨"luffa", 64⟩, ⟨"jn64", 8⟩, ⟨"mar32", 4⟩, ⟨"me32", 4⟩, ⟨"me64", 8⟩, ⟨"me128", 16⟩,
    ⟨"met64", 8⟩, ⟨"mm32", 4⟩, ⟨"murmur3", 16⟩, ⟨"md2", 16⟩, ⟨"md4", 16⟩, ⟨"md5", 16⟩,
    ⟨"poly1305", 16⟩, ⟨"ripe128", 16⟩, ⟨"ripe160", 20⟩, ⟨"ripe256", 32⟩, ⟨"ripe320", 40⟩,
    ⟨"sea", 8⟩, ⟨"sha1_64", 8⟩, ⟨"sha1_128", 16⟩, ⟨"sha1_1284", 16⟩, ⟨"sha1", 20⟩,
    ⟨"sha224", 28⟩, ⟨"sha256", 32⟩, ⟨"sha512_224", 28⟩, ⟨"sha512_256", 32⟩, ⟨"sha512_384", 48⟩,
    ⟨"sha512", 64⟩, ⟨"sha3_224", 28⟩, ⟨"sha3_256", 32⟩, ⟨"sha3_384", 48⟩, ⟨"sha3_512", 64⟩,
    ⟨"shavite", 64⟩, ⟨"sip64", 8⟩, ⟨"sip128", 16⟩, ⟨"skein_160", 20⟩, ⟨"skein_256", 32⟩,
    ⟨"skein_384", 48⟩, ⟨"skein_512", 64⟩, ⟨"skein_1024", 128⟩, ⟨"spk32", 4⟩, ⟨"spk64", 8⟩,
    ⟨"tiger", 24⟩, ⟨"t1ha", 8⟩, ⟨"whirlpool", 64⟩, ⟨"xxh32", 4⟩, ⟨"xxhash", 8⟩, ⟨"wy", 8⟩]

/-- A context of a hash list: its row of the registry and its digest. -/
structure HashContext where
  row : HashList
  sum : List UInt8 → List UInt8
  mem : row ∈ hlist
  length_sum : ∀ bytes, (sum bytes).length = row.blockSize

/-- The map of `SetHashListBlockSize`; no name occurs twice. -/
def hashBlockSize (name : List UInt8) : Option ℕ :=
  (hlist.find? fun row => ascii row.hashName = name).map HashList.blockSize

/-- The sizes of the names of a list that are in the registry. -/
def calcHashBlockSize (hashlist : List UInt8) : List ℕ :=
  (hashlist.splitOn 58).filterMap hashBlockSize

/-- `strings.Join(names, ":")`. -/
def joinNames (hashes : List HashContext) : List UInt8 :=
  [58].intercalate (hashes.map fun hash => ascii hash.row.hashName)

/-- `filehashList-blockhashList`, and `-keylist` when there is one. -/
def hashListString (filehashList blockhashList : List HashContext) (keylist : List UInt8) :
    List UInt8 :=
  joinNames filehashList ++ 45 :: joinNames blockhashList ++
    if keylist = [] then [] else 45 :: keylist

/-- The parts of the hash list string that `DecodeFile` uses. -/
def splitHashList (hlist : List UInt8) : Option (List UInt8 × List UInt8 × List UInt8) :=
  match hlist.splitOn 45 with
  | filelist :: blocklist :: keylist :: _ => some (filelist, blocklist, keylist)
  | [filelist, blocklist] => some (filelist, blocklist, [])
  | _ => none

theorem hlist_names : ∀ row ∈ hlist, 45 ∉ ascii row.hashName ∧ 58 ∉ ascii row.hashName ∧
    hashBlockSize (ascii row.hashName) = some row.blockSize := by
  decide +kernel

theorem crc32_mem_hlist : (⟨"crc32", 4⟩ : HashList) ∈ hlist := by decide

/-! Two of the signatures, those of `hash/adler32` and `hash/crc32` -/

def adler32Update (digest : ℕ × ℕ) (byte : UInt8) : ℕ × ℕ :=
  let s1 := (digest.1 + byte.toNat) % 65521
  (s1, (digest.2 + s1) % 65521)

def adler32 : HashContext where
  row := ⟨"add32", 4⟩
  sum bytes :=
    let (s1, s2) := bytes.foldl adler32Update (1, 0)
    toBE 4 (s2 * 65536 + s1)
  mem := by decide
  length_sum _ := length_toBE ..

/-- A bit of the division by the reversed IEEE polynomial. -/
def crc32Bit (crc : ℕ) : ℕ := if crc % 2 = 1 then crc / 2 ^^^ 0xedb88320 else crc / 2

def crc32Update (crc : ℕ) (byte : UInt8) : ℕ := Nat.iterate crc32Bit 8 (crc ^^^ byte.toNat)

def crc32 : HashContext where
  row := ⟨"crc32", 4⟩
  sum bytes := toBE 4 (bytes.foldl crc32Update 0xffffffff ^^^ 0xffffffff)
  mem := crc32_mem_hlist
  length_sum _ := length_toBE ..

/-- The check value of the polynomial. -/
example : crc32.sum (ascii "123456789") = [0xcb, 0xf4, 0x39, 0x26] := by decide +kernel

theorem hashBlockSize_nil : hashBlockSize [] = none := by decide +kernel

theorem splitOn_joinNames {hashes : List HashContext} (hne : hashes ≠ []) :
    (joinNames hashes).splitOn 58 = hashes.map fun hash => ascii hash.row.hashName := by
  have hcolon : ∀ name ∈ hashes.map fun hash => ascii hash.row.hashName, 58 ∉ name := by
    intro name hname
    obtain ⟨hash, -, rfl⟩ := List.mem_map.mp hname
    exact (hlist_names _ hash.mem).2.1
  rw [joinNames, List.splitOn_intercalate 58 hcolon (by simpa using hne)]

theorem calcHashBlockSize_joinNames (hashes : List HashContext) :
    calcHashBlockSize (joinNames hashes) = hashes.map fun hash => hash.row.blockSize := by
  rcases eq_or_ne hashes [] with rfl | hne
  · simp [calcHashBlockSize, joinNames, hashBlockSize_nil]
  · rw [calcHashBlockSize, splitOn_joinNames hne, List.filterMap_map]
    calc
      hashes.filterMap (hashBlockSize ∘ fun hash => ascii hash.row.hashName) =
          hashes.filterMap (some ∘ fun hash => hash.row.blockSize) :=
        List.filterMap_congr fun hash _ => (hlist_names _ hash.mem).2.2
      _ = hashes.map fun hash => hash.row.blockSize :=
        congrFun List.filterMap_eq_map hashes

theorem joinNames_ne_nil {hashes : List HashContext} (h : hashes ≠ []) : joinNames hashes ≠ [] := by
  intro hnil
  have hsizes := calcHashBlockSize_joinNames hashes
  rw [hnil, calcHashBlockSize, List.splitOn_nil, List.filterMap_cons_none hashBlockSize_nil,
    List.filterMap_nil, eq_comm, List.map_eq_nil_iff] at hsizes
  exact h hsizes

theorem dash_notMem_joinNames (hashes : List HashContext) : 45 ∉ joinNames hashes := by
  intro hmem
  induction hashes with
  | nil => simp [joinNames] at hmem
  | cons hash rest ih =>
    have hname := (hlist_names _ hash.mem).1
    rcases eq_or_ne rest [] with rfl | hne
    · simp [joinNames] at hmem
      exact hname hmem
    · rw [joinNames, List.map_cons, List.intercalate_cons_of_ne_nil (by simpa using hne),
        List.append_assoc, List.mem_append, List.mem_append] at hmem
      rcases hmem with hmem | hmem | hmem
      · exact hname hmem
      · simp at hmem
      · exact ih hmem

theorem splitHashList_hashListString (filehashList blockhashList : List HashContext)
    {keylist : List UInt8} (hkey : 45 ∉ keylist) :
    splitHashList (hashListString filehashList blockhashList keylist) =
      some (joinNames filehashList, joinNames blockhashList, keylist) := by
  unfold splitHashList hashListString
  rw [List.append_assoc, List.cons_append,
    List.splitOn_append_cons_self_of_not_mem (dash_notMem_joinNames filehashList)]
  split_ifs with hnil
  · rw [List.append_nil, List.splitOn_eq_singleton (dash_notMem_joinNames blockhashList), hnil]
  · rw [List.splitOn_append_cons_self_of_not_mem (dash_notMem_joinNames blockhashList),
      List.splitOn_eq_singleton hkey]

/-- A string that is no longer than its two lists has no more parts. -/
theorem eq_of_splitHashList {hashes filelist blocklist keylist : List UInt8}
    (h : splitHashList hashes = some (filelist, blocklist, keylist))
    (hlen : hashes.length ≤ (filelist ++ 45 :: blocklist).length) :
    hashes = filelist ++ 45 :: blocklist ∧ keylist = [] := by
  have hjoin : [45].intercalate (hashes.splitOn 45) = hashes := List.intercalate_splitOn 45
  unfold splitHashList at h
  split at h
  · rename_i rest heq
    obtain ⟨rfl, rfl, rfl⟩ := by simpa using h
    have hlength := congrArg List.length hjoin
    rw [heq] at hlength
    cases rest <;> simp [List.intercalate] at hlength hlen <;> omega
  · rename_i heq
    obtain ⟨rfl, rfl, rfl⟩ := by simpa using h
    rw [← hjoin, heq]
    exact ⟨by simp [List.intercalate], rfl⟩
  · cases h

end Mdencode.Go
