import Mdencode.Cpp.HashContextList

/-! What a block's stored digests say about another block. Two contexts with
the same keys compute the same digests, and a context that has read back what
another wrote accepts exactly the blocks with the same stored digests. -/

namespace Mdencode.Cpp

open Mdencode.Bytes

/-! The tables of the registry -/

/-- What the tables say about a row: it is stored and compared in its
registered size, out of a digest kept apart from the keys it is made with. -/
def Hashlist.Consistent (hash : Hashlist) : Prop :=
  storedLength hash = hash.blocksize ∧ comparedLength hash = hash.blocksize ∧
    (∃ d ∈ digest hash.signature, hash.blocksize ≤ d.length ∧ d.cell.isKey = false ∧
      ∀ span ∈ d.key, span.cell.isKey = true) ∧
    ∀ span ∈ randomSpans hash.signature, span ∈ keySpans hash.signature

instance (hash : Hashlist) : Decidable hash.Consistent :=
  inferInstanceAs (Decidable (_ ∧ _ ∧ (∃ d ∈ _, _ ∧ _ ∧ ∀ span ∈ _, _) ∧ ∀ span ∈ _, _))

/-- Signatures that share a member put the same digest there. -/
def Unshared (registry : List Hashlist) : Prop :=
  ∀ a ∈ registry, ∀ b ∈ registry, (digest a.signature).map Digest.cell =
    (digest b.signature).map Digest.cell → digest a.signature = digest b.signature

instance (registry : List Hashlist) : Decidable (Unshared registry) :=
  inferInstanceAs (Decidable (∀ a ∈ _, ∀ b ∈ _, _ → _))

/-- A registry whose rows go with the tables. -/
structure Tabled (registry : List Hashlist) : Prop where
  consistent : ∀ hash ∈ registry.take (hashlistsize registry), hash.Consistent
  unshared : Unshared (registry.take (hashlistsize registry))

theorem mdHashlist_tabled : Tabled mdHashlist := ⟨by decide +kernel, by decide +kernel⟩

theorem mdHashlistNew_tabled : Tabled mdHashlistNew := ⟨by decide +kernel, by decide +kernel⟩

theorem Registered.consistent {registry hashlistvt : List Hashlist} (h : Tabled registry)
    (hreg : Registered registry hashlistvt) : ∀ hash ∈ hashlistvt, hash.Consistent :=
  fun hash hmem => h.consistent hash (hreg.mem hash hmem)

theorem Registered.unshared {registry hashlistvt : List Hashlist} (h : Tabled registry)
    (hreg : Registered registry hashlistvt) : Unshared hashlistvt :=
  fun a ha b hb => h.unshared a (hreg.mem a ha) b (hreg.mem b hb)

/-! Registers with the same keys -/

def KeysAgree (r₁ r₂ : Registers) : Prop := ∀ c : Member, c.isKey = true → r₁ c = r₂ c

section
variable {keys r r₁ r₂ r₃ : Registers} {hash : Hashlist} {hashlistvt : List Hashlist}

theorem KeysAgree.refl (r : Registers) : KeysAgree r r := fun _ _ => rfl

theorem KeysAgree.symm (h : KeysAgree r₁ r₂) : KeysAgree r₂ r₁ := fun c hc => (h c hc).symm

theorem KeysAgree.trans (h : KeysAgree r₁ r₂) (h' : KeysAgree r₂ r₃) : KeysAgree r₁ r₃ :=
  fun c hc => (h c hc).trans (h' c hc)

theorem keysAgree_initialRegisters (m₁ m₂ : Registers) :
    KeysAgree (initialRegisters m₁) (initialRegisters m₂) := by
  intro c hc
  obtain ⟨bytes, hbytes⟩ := Option.isSome_iff_exists.mp hc
  funext k
  simp [initialRegisters, hbytes]

theorem keysAgree_store {c : Member} (hc : c.isKey = false) (r : Registers) (bytes : List UInt8) :
    KeysAgree r (r.store c bytes) := by
  intro c' hc'
  have hne : c' ≠ c := by
    rintro rfl
    simp [hc] at hc'
  funext k
  rw [Memory.store, if_neg hne]

theorem KeysAgree.fetch (h : KeysAgree r₁ r₂) (span : Span Member)
    (hspan : span.cell.isKey = true) : r₁.fetch span = r₂.fetch span :=
  Memory.fetch_congr _ _ fun k _ => congrFun (h _ hspan) k

theorem KeysAgree.store (h : KeysAgree r₁ r₂) (c : Member) (bytes : List UInt8) :
    KeysAgree (r₁.store c bytes) (r₂.store c bytes) := by
  intro c' hc'
  funext k
  rw [Memory.store, Memory.store, h c' hc']

/-- Increments are made from the keys alone. -/
theorem KeysAgree.incrementHashKey (h : KeysAgree r₁ r₂) (n : ℕ) (incKey : IncrementKey)
    (hash : Hashlist) : KeysAgree (MdHashContextList.incrementHashKey n incKey r₁ hash)
      (MdHashContextList.incrementHashKey n incKey r₂ hash) := by
  unfold MdHashContextList.incrementHashKey
  split
  · rw [h.fetch ⟨.sipkey40, 16⟩ rfl]
    exact h.store _ _
  · rw [h.fetch ⟨.sipkey48, 16⟩ rfl]
    exact h.store _ _
  · exact h

theorem KeysAgree.foldl_incrementHashKey (h : KeysAgree r₁ r₂) (n : ℕ) (incKey : IncrementKey)
    (hashlistvt : List Hashlist) :
    KeysAgree (hashlistvt.foldl (MdHashContextList.incrementHashKey n incKey) r₁)
      (hashlistvt.foldl (MdHashContextList.incrementHashKey n incKey) r₂) := by
  induction hashlistvt generalizing r₁ r₂ with
  | nil => exact h
  | cons hash hashlistvt ih => exact ih (h.incrementHashKey n incKey hash)

/-- Two contexts with one list, one block number and the same keys. -/
structure SameContext (hcl₁ hcl₂ : MdHashContextList) : Prop where
  hashlistvt : hcl₁.hashlistvt = hcl₂.hashlistvt
  blocknumber : hcl₁.blocknumber = hcl₂.blocknumber
  keys : KeysAgree hcl₁.hregister hcl₂.hregister

theorem SameContext.symm {hcl₁ hcl₂ : MdHashContextList} (h : SameContext hcl₁ hcl₂) :
    SameContext hcl₂ hcl₁ := ⟨h.hashlistvt.symm, h.blocknumber.symm, h.keys.symm⟩

theorem SameContext.trans {hcl₁ hcl₂ hcl₃ : MdHashContextList} (h : SameContext hcl₁ hcl₂)
    (h' : SameContext hcl₂ hcl₃) : SameContext hcl₁ hcl₃ :=
  ⟨h.hashlistvt.trans h'.hashlistvt, h.blocknumber.trans h'.blocknumber, h.keys.trans h'.keys⟩

theorem SameContext.incrementBlockNum {hcl₁ hcl₂ : MdHashContextList} (h : SameContext hcl₁ hcl₂)
    (incKey : IncrementKey) :
    SameContext (hcl₁.incrementBlockNum incKey) (hcl₂.incrementBlockNum incKey) := by
  obtain ⟨hlist, hnumber, hkeys⟩ := h
  unfold MdHashContextList.incrementBlockNum
  rw [hnumber]
  split_ifs
  · refine ⟨hlist, congrArg (· + 1) hnumber, ?_⟩
    dsimp only [MdHashContextList.incrementBlockKeyList]
    rw [hlist, hnumber]
    exact hkeys.foldl_incrementHashKey _ _ _
  · exact ⟨hlist, congrArg (· + 1) hnumber, hkeys⟩

/-! Digests of a block -/

variable (lib : HashLibrary) (data block : List UInt8)

@[simp] theorem Digest.length_run (d : Digest)
    (hash : HashFunction → List UInt8 → List UInt8 → ℕ → UInt8) :
    (d.run hash keys data).length = d.length := by
  simp [Digest.run]

theorem KeysAgree.run (h : KeysAgree r₁ r₂)
    (function : HashFunction → List UInt8 → List UInt8 → ℕ → UInt8) {d : Digest}
    (hd : ∀ span ∈ d.key, span.cell.isKey = true) :
    d.run function r₁ data = d.run function r₂ data := by
  rw [Digest.run, Digest.run, Memory.dump_congr r₁ r₂]
  exact fun span hspan k _ => congrFun (h _ (hd span hspan)) k

/-- The bytes of a digest that are stored for a block. -/
def blockSignature (keys : Registers) (data : List UInt8) (hash : Hashlist) : List UInt8 :=
  match digest hash.signature with
  | some d => (d.run lib.hash keys data).take hash.blocksize
  | none => []

/-- The hash list tells the block from every other of its length. -/
def Separates (keys : Registers) (hashlistvt : List Hashlist) (block : List UInt8) : Prop :=
  ∀ data : List UInt8, data.length = block.length →
    (∀ hash ∈ hashlistvt, blockSignature lib keys data hash = blockSignature lib keys block hash) →
    data = block

/-- Each digest is in its member once all have been made, whichever of the two
tables of functions they are made with. -/
theorem foldl_digestStep_of (table : Signature → Option Digest)
    (function : HashFunction → List UInt8 → List UInt8 → ℕ → UInt8)
    (hcons : ∀ hash ∈ hashlistvt, ∃ d ∈ table hash.signature, d.cell.isKey = false ∧
      ∀ span ∈ d.key, span.cell.isKey = true)
    (hunshared : ∀ a ∈ hashlistvt, ∀ b ∈ hashlistvt, (table a.signature).map Digest.cell =
      (table b.signature).map Digest.cell → table a.signature = table b.signature)
    (hkeys : KeysAgree keys r) :
    KeysAgree keys (hashlistvt.foldl
        (fun r hash => digestStep function data r (table hash.signature)) r) ∧
      ∀ hash ∈ hashlistvt, ∀ d ∈ table hash.signature, (hashlistvt.foldl
        (fun r hash => digestStep function data r (table hash.signature)) r).fetch
          ⟨d.cell, d.length⟩ = d.run function keys data := by
  induction hashlistvt using List.reverseRecOn with
  | nil => exact ⟨hkeys, by simp⟩
  | append_singleton hashlistvt last ih =>
    obtain ⟨hagree, hstored⟩ := ih
      (fun hash hmem => hcons hash (List.mem_append_left _ hmem))
      (fun a ha b hb => hunshared a (List.mem_append_left _ ha) b (List.mem_append_left _ hb))
    rw [List.foldl_append, List.foldl_cons, List.foldl_nil]
    set mid := hashlistvt.foldl (fun r hash => digestStep function data r (table hash.signature)) r
    obtain ⟨dl, hdl, hcell, hkey⟩ := hcons last (by simp)
    rw [Option.mem_def] at hdl
    have hrun : dl.run function mid data = dl.run function keys data :=
      hagree.symm.run data function hkey
    rw [hdl, digestStep, hrun]
    have hlast : (mid.store dl.cell (dl.run function keys data)).fetch ⟨dl.cell, dl.length⟩ =
        dl.run function keys data := by
      have := Memory.fetch_store mid dl.cell (dl.run function keys data)
      rwa [Digest.length_run] at this
    refine ⟨hagree.trans (keysAgree_store hcell _ _), fun hash hmem d hd => ?_⟩
    by_cases hshare : d.cell = dl.cell
    · have heq := hunshared hash hmem last (by simp) (by rw [hd, hdl]; simp [hshare])
      rw [hd, hdl, Option.some.injEq] at heq
      rw [heq, hlast]
    · have hmem' : hash ∈ hashlistvt := by
        rcases List.mem_append.mp hmem with h | h
        · exact h
        · obtain rfl := List.mem_singleton.mp h
          rw [hdl, Option.mem_def, Option.some.injEq] at hd
          exact absurd (congrArg Digest.cell hd.symm) hshare
      rw [← hstored hash hmem' d hd]
      exact Memory.fetch_store_of_ne _ hshare _

/-- Each digest of a block is in its member once all have been made. -/
theorem foldl_digestStep (hcons : ∀ hash ∈ hashlistvt, hash.Consistent)
    (hunshared : Unshared hashlistvt) (hkeys : KeysAgree keys r) :
    KeysAgree keys (hashlistvt.foldl
        (fun r hash => digestStep lib.hash block r (digest hash.signature)) r) ∧
      ∀ hash ∈ hashlistvt, ∀ d ∈ digest hash.signature, (hashlistvt.foldl
        (fun r hash => digestStep lib.hash block r (digest hash.signature)) r).fetch
          ⟨d.cell, d.length⟩ = d.run lib.hash keys block := by
  refine foldl_digestStep_of block digest lib.hash (fun hash hmem => ?_) hunshared hkeys
  obtain ⟨-, -, ⟨d, hd, -, hcell, hkey⟩, -⟩ := hcons hash hmem
  exact ⟨d, hd, hcell, hkey⟩

theorem sameContext_setByteBlockHashList {hcl : MdHashContextList}
    (hcons : ∀ hash ∈ hcl.hashlistvt, hash.Consistent) (hunshared : Unshared hcl.hashlistvt) :
    SameContext (hcl.setByteBlockHashList lib block) hcl :=
  ⟨rfl, rfl, (foldl_digestStep lib block hcons hunshared (KeysAgree.refl _)).1.symm⟩

/-- A comparison with stored digests compares what is stored for the two blocks. -/
theorem compareHash_iff (hcons : hash.Consistent) (hkeys : KeysAgree keys r)
    (hstored : ∀ d ∈ digest hash.signature,
      r.fetch ⟨d.cell, hash.blocksize⟩ = (d.run lib.hash keys block).take hash.blocksize) :
    compareHash lib r data hash = true ↔
      blockSignature lib keys data hash = blockSignature lib keys block hash := by
  obtain ⟨-, hcompared, ⟨d, hd, -, -, hkey⟩, -⟩ := hcons
  rw [Option.mem_def] at hd
  unfold compareHash blockSignature
  rw [hd, decide_eq_true_iff, hcompared, hstored d hd, hkeys.symm.run data lib.hash hkey]

/-! A block's digests, written and read back -/

theorem incrementHashKey_of_not_key (n : ℕ) (incKey : IncrementKey) (r : Registers)
    (hash : Hashlist) {c : Member} (hc : c.isKey = false) :
    MdHashContextList.incrementHashKey n incKey r hash c = r c := by
  have hstore {key : Member} (hkey : key.isKey = true) (bytes : List UInt8) :
      r.store key bytes c = r c := by
    funext k
    rw [Memory.store, if_neg]
    rintro rfl
    rw [hc] at hkey
    cases hkey
  fun_cases MdHashContextList.incrementHashKey n incKey r hash with
  | case1 => exact hstore rfl _
  | case2 => exact hstore rfl _
  | case3 => rfl

theorem incrementBlockNum_of_not_key (hcl : MdHashContextList) (incKey : IncrementKey)
    {c : Member} (hc : c.isKey = false) :
    (hcl.incrementBlockNum incKey).hregister c = hcl.hregister c := by
  unfold MdHashContextList.incrementBlockNum
  split_ifs
  · dsimp only [MdHashContextList.incrementBlockKeyList]
    generalize hcl.hregister = r
    generalize hcl.hashlistvt = hashlistvt
    induction hashlistvt generalizing r with
    | nil => rfl
    | cons hash hashlistvt ih =>
      rw [List.foldl_cons, ih, incrementHashKey_of_not_key _ _ _ _ hc]
  · rfl

theorem mem_blockListSpans {hcl : MdHashContextList} {span : Span Member} :
    span ∈ hcl.blockListSpans ↔ ∃ hash ∈ hcl.hashlistvt, ∃ d ∈ digest hash.signature,
      span = ⟨d.cell, storedLength hash⟩ := by
  simp [MdHashContextList.blockListSpans, blockSpans, eq_comm]

variable {enc dec : MdHashContextList}

theorem readBlockHashList_append (h : dec.hashlistvt = enc.hashlistvt) (rest : List UInt8) :
    dec.readBlockHashList (IStream.ofBytes (enc.writeBlockHashList ++ rest)) =
      ({ dec with hregister := Memory.overlay enc.blockListSpans enc.hregister dec.hregister },
        IStream.ofBytes rest) := by
  have hspans : dec.blockListSpans = enc.blockListSpans := by
    rw [MdHashContextList.blockListSpans, h, MdHashContextList.blockListSpans]
  rw [MdHashContextList.readBlockHashList, hspans, MdHashContextList.writeBlockHashList,
    Memory.load_dump]

/-- Bytes that are read into other members touch no key. -/
theorem keysAgree_overlay {spans : List (Span Member)}
    (h : ∀ span ∈ spans, span.cell.isKey = false) (src dst : Registers) :
    KeysAgree dst (Memory.overlay spans src dst) := by
  intro c hc
  funext k
  rw [Memory.overlay, if_neg]
  rintro ⟨span, hspan, rfl, -⟩
  rw [h span hspan] at hc
  cases hc

theorem isKey_of_mem_blockListSpans {hcl : MdHashContextList}
    (hcons : ∀ hash ∈ hcl.hashlistvt, hash.Consistent) :
    ∀ span ∈ hcl.blockListSpans, span.cell.isKey = false := by
  intro span hspan
  obtain ⟨hash, hmem, d, hd, rfl⟩ := mem_blockListSpans.mp hspan
  obtain ⟨-, -, ⟨d', hd', -, hcell, -⟩, -⟩ := hcons hash hmem
  obtain rfl := Option.mem_unique hd hd'
  exact hcell

/-- A stored digest survives the reading and the step of the block number. -/
theorem fetch_incrementBlockNum (incKey : IncrementKey) {hcl src : MdHashContextList}
    {spans : List (Span Member)} {cell : Member} {blocksize length : ℕ}
    (hregister : hcl.hregister = Memory.overlay spans src.hregister dec.hregister)
    (hmem : (⟨cell, blocksize⟩ : Span Member) ∈ spans) (hcell : cell.isKey = false)
    (hle : blocksize ≤ length) :
    (hcl.incrementBlockNum incKey).hregister.fetch ⟨cell, blocksize⟩ =
      (src.hregister.fetch ⟨cell, length⟩).take blocksize := by
  calc
    (hcl.incrementBlockNum incKey).hregister.fetch ⟨cell, blocksize⟩ =
        hcl.hregister.fetch ⟨cell, blocksize⟩ :=
      Memory.fetch_congr _ _ fun k _ => congrFun (incrementBlockNum_of_not_key _ _ hcell) k
    _ = src.hregister.fetch ⟨cell, blocksize⟩ := by rw [hregister, Memory.fetch_overlay _ _ _ hmem]
    _ = (src.hregister.fetch ⟨cell, length⟩).take blocksize := (Memory.take_fetch _ _ hle).symm

/-- The reader takes in what the writer put out for a block, has the writer's
keys for the next one, and accepts the blocks with the same stored digests. -/
theorem readBlockHashList_writeBlockHashList (hsame : SameContext enc dec)
    (hcons : ∀ hash ∈ enc.hashlistvt, hash.Consistent) (hunshared : Unshared enc.hashlistvt)
    (incKey : IncrementKey) (rest : List UInt8) :
    let next := enc.incrementBlockNum incKey
    let out := next.setByteBlockHashList lib block
    ∃ dec', dec.readBlockHashList (IStream.ofBytes (out.writeBlockHashList ++ rest)) =
        (dec', IStream.ofBytes rest) ∧
      SameContext out (dec'.incrementBlockNum incKey) ∧
      ∀ data, (dec'.incrementBlockNum incKey).compareBlockHashList lib data = true ↔
        ∀ hash ∈ enc.hashlistvt, blockSignature lib next.hregister data hash =
          blockSignature lib next.hregister block hash := by
  intro next out
  have hlist : next.hashlistvt = enc.hashlistvt := by
    simp only [next, MdHashContextList.incrementBlockNum]
    split_ifs <;> rfl
  have hlist' : dec.hashlistvt = out.hashlistvt := hsame.hashlistvt.symm.trans hlist.symm
  obtain ⟨hkeys, hstored⟩ := foldl_digestStep lib block (hlist ▸ hcons) (hlist ▸ hunshared)
    (KeysAgree.refl next.hregister)
  set dec' : MdHashContextList := { dec with
    hregister := Memory.overlay out.blockListSpans out.hregister dec.hregister }
  have hsame' : SameContext enc dec' :=
    ⟨hsame.hashlistvt, hsame.blocknumber, hsame.keys.trans (keysAgree_overlay
      (isKey_of_mem_blockListSpans fun hash hmem => hcons hash (hlist ▸ hmem)) _ _)⟩
  have hnext := hsame'.incrementBlockNum incKey
  refine ⟨dec', readBlockHashList_append hlist' rest, ⟨hnext.hashlistvt, hnext.blocknumber,
    hkeys.symm.trans hnext.keys⟩, fun data => ?_⟩
  rw [MdHashContextList.compareBlockHashList, ← hnext.hashlistvt, hlist, List.all_eq_true]
  refine forall₂_congr fun hash hmem => compareHash_iff lib data block (hcons hash hmem)
    hnext.keys fun d hd => ?_
  obtain ⟨hsize, -, ⟨d', hd', hle, hcell, -⟩, -⟩ := hcons hash hmem
  obtain rfl := Option.mem_unique hd hd'
  have hspan : (⟨d.cell, hash.blocksize⟩ : Span Member) ∈ out.blockListSpans :=
    mem_blockListSpans.mpr ⟨hash, hlist.symm ▸ hmem, d, hd, by rw [hsize]⟩
  rw [fetch_incrementBlockNum incKey rfl hspan hcell hle, ← hstored hash (hlist.symm ▸ hmem) d hd]
  rfl

/-! The keys, written and read back -/

theorem readKeyList_writeKeyList (hcons : ∀ hash ∈ hashlistvt, hash.Consistent)
    (m₁ m₂ random : Registers) (rest : List UInt8) :
    let enc := (MdHashContextList.new m₁ hashlistvt).randomizeKeyList random
    ∃ dec, (MdHashContextList.new m₂ hashlistvt).readKeyList
        (IStream.ofBytes (enc.writeKeyList ++ rest)) = (dec, IStream.ofBytes rest) ∧
      SameContext enc dec := by
  intro enc
  refine ⟨{ MdHashContextList.new m₂ hashlistvt with
    hregister := Memory.overlay enc.keyListSpans enc.hregister (initialRegisters m₂) }, ?_,
    rfl, rfl, fun c hc => ?_⟩
  · have hspans : (MdHashContextList.new m₂ hashlistvt).keyListSpans = enc.keyListSpans := rfl
    rw [MdHashContextList.readKeyList, MdHashContextList.writeKeyList, hspans, Memory.load_dump]
    rfl
  · funext k
    dsimp only [Memory.overlay]
    split_ifs with hcovers
    · rfl
    · -- what is not written out was not randomized either
      dsimp only [enc, MdHashContextList.randomizeKeyList, Memory.overlay]
      rw [if_neg]
      · exact congrFun (keysAgree_initialRegisters m₁ m₂ c hc) k
      · rintro ⟨span, hspan, hk⟩
        obtain ⟨hash, hmem, hspan⟩ := List.mem_flatMap.mp hspan
        exact hcovers ⟨span, List.mem_flatMap.mpr
          ⟨hash, hmem, (hcons hash hmem).2.2.2 span hspan⟩, hk⟩

theorem length_writeBlockHashList (hcons : ∀ hash ∈ enc.hashlistvt, hash.Consistent) :
    enc.writeBlockHashList.length = calcBlockSize enc.hashlistvt := by
  rw [MdHashContextList.writeBlockHashList, Memory.length_dump, calcBlockSize,
    MdHashContextList.blockListSpans, List.map_flatMap, List.flatMap_def, List.sum_flatten,
    List.map_map]
  refine congrArg List.sum (List.map_congr_left fun hash hmem => ?_)
  obtain ⟨hsize, -, ⟨d, hd, -⟩, -⟩ := hcons hash hmem
  rw [Option.mem_def] at hd
  simp [blockSpans, hd, hsize]

end

end Mdencode.Cpp
