import Mdencode.Go.HashBlockList

/-! The keys of the signatures. `SetHashListKey` of `mdHashContextList.go` reads
a key list into a map and gives back the list it has understood, which the
encoder stores in the header and every context of the decoder reads again. -/

namespace Mdencode.Go

open Mdencode.Bytes

/-- `map[string]string`. -/
abbrev KeyMap := List UInt8 → Option (List UInt8)

def defaultkey : String := "LomaLindaSanSerento9000"

def defaulthwkey : String := "000102030405060708090a0b0cff0e0f101112131415161718191a1b1c1d1e1f"

/-- The assignments before the loop. -/
def defaultKeys : List (String × String) :=
  [("default", defaultkey), ("aes8", "99123312"), ("ax1", "991209123091283"),
    ("ax2", "9881223091283"), ("blake2s_128", defaultkey), ("blake2s_256", defaultkey),
    ("ct64", "111111222"), ("fh32", "909921232221"), ("fh64", "909921232221"),
    ("hw32", defaulthwkey), ("hw64", defaulthwkey), ("hw128", defaulthwkey),
    ("hw256", defaulthwkey), ("jn64", "132200231"), ("mar32", "191203221"),
    ("me32", "11203221"), ("me64", "6660322"), ("me128", "9920322"), ("met64", "7319920322"),
    ("mm32", "1120322"), ("murmur3", "1120322"), ("sip64", "000102030405060708090a0b0c0d0e0f"),
    ("sip128", "000102030405060708090a0b0c0d0e0f"), ("spk32", "1238821"),
    ("spk64", "7072112122"), ("t1ha", "90112122"), ("xxh32", "99123312"), ("xxhash", "99123312")]

def defaultKeylist : KeyMap := fun sig =>
  (defaultKeys.find? fun row => ascii row.1 = sig).map fun row => ascii row.2

/-- What a case of the `switch` does with a key: it takes it as it is, takes it
from some size on, or fills it up to a size. -/
inductive KeyRule
  | plain
  | atLeast (size : ℕ)
  | padded (size : ℕ)
  deriving DecidableEq

/-- The cases of the `switch`; there is none for `met64`. -/
def keyRules : List (String × KeyRule) :=
  [("aes8", .plain), ("ax1", .plain), ("ax2", .plain), ("blake2s_128", .atLeast 16),
    ("blake2s_256", .atLeast 16), ("ct64", .plain), ("fh32", .plain), ("fh64", .plain),
    ("hw32", .padded 64), ("hw64", .padded 64), ("hw128", .padded 64), ("hw256", .padded 64),
    ("jn64", .plain), ("mar32", .plain), ("me32", .plain), ("me64", .plain), ("me128", .plain),
    ("mm32", .plain), ("murmur3", .plain), ("sip64", .padded 32), ("sip128", .padded 32),
    ("spk32", .plain), ("spk64", .plain), ("t1ha", .plain), ("xxh32", .plain),
    ("xxhash", .plain), ("wy", .plain)]

def keyRule (sig : List UInt8) : Option KeyRule :=
  (keyRules.find? fun row => ascii row.1 = sig).map Prod.snd

/-- `fmt.Sprintf("%0Ns", sigkey)`. -/
def zeroPad (size : ℕ) (sigkey : List UInt8) : List UInt8 :=
  List.replicate (size - sigkey.length) 48 ++ sigkey

/-- The key that takes the place of the old one, if any does. -/
def KeyRule.newKey (sigkey : List UInt8) : KeyRule → Option (List UInt8)
  | plain => some sigkey
  | atLeast size => if size ≤ sigkey.length then some sigkey else none
  | padded size =>
    if sigkey.length = size then some sigkey
    else if 1 < sigkey.length ∧ sigkey.length < size then some (zeroPad size sigkey)
    else none

def KeyRule.assign (rule : KeyRule) (sig sigkey : List UInt8) (keylist : KeyMap) : KeyMap :=
  match rule.newKey sigkey with
  | some key => Function.update keylist sig (some key)
  | none => keylist

/-- `sig:key`, with the comma behind it. -/
def keyText (sig key : List UInt8) : List UInt8 := sig ++ 58 :: key ++ [44]

/-- One part of the key list: the map and the result so far. -/
def setKey (s : KeyMap × List UInt8) (val : List UInt8) : KeyMap × List UInt8 :=
  match val.splitOn 58 with
  | [sig, sigkey] =>
    match keyRule sig with
    | some rule =>
      let keylist := rule.assign sig sigkey s.1
      (keylist, s.2 ++ keyText sig ((keylist sig).getD []))
    | none => s
  | _ => s

/-- The map, and the key list that stands for it. -/
def setHashListKey (keylist : List UInt8) : KeyMap × List UInt8 :=
  ((keylist ++ [44]).splitOn 44).foldl setKey (defaultKeylist, [])

/-! `SetKeyList` -/

def isWord (c : UInt8) : Bool :=
  isDigit c || (65 ≤ c.toNat && c.toNat ≤ 90) || (97 ≤ c.toNat && c.toNat ≤ 122) || c = 95

def isXdigit (c : UInt8) : Bool :=
  isDigit c || (65 ≤ c.toNat && c.toNat ≤ 70) || (97 ≤ c.toNat && c.toNat ≤ 102)

/-- `[A-Za-z0-9_]+[:][[:xdigit:]]+`. -/
def keyMatches (text : List UInt8) : Bool :=
  match text.splitOn 58 with
  | [name, value] => name ≠ [] && name.all isWord && value ≠ [] && value.all isXdigit
  | _ => false

/-- `^(key[,])*(key)?$`: keys with a comma behind each, and maybe one without. -/
def keylistMatches (keylist : List UInt8) : Bool :=
  let keys := keylist.splitOn 44
  keys.dropLast.all keyMatches && keys.getLast?.all fun key => key = [] || keyMatches key

/-! The encoder and the decoder -/

/-- The maps of the two calls of `createHashListMap`, and the key list that goes
into the header. -/
structure EncoderKeys where
  fileKeys : KeyMap
  blockKeys : KeyMap
  keylist : List UInt8

def createHashListMaps (keylist : List UInt8) : EncoderKeys :=
  let (fileKeys, keylist) := setHashListKey keylist
  let (blockKeys, keylist) := setHashListKey keylist
  { fileKeys, blockKeys, keylist }

/-- The maps of the contexts that `DecodeFile` makes, its own and one for every
thread; it exits when there is no block list. -/
def decodeFileKeys (threadCount : ℕ) (hlist : List UInt8) : Option (List KeyMap) := do
  let (_, blocklist, keyListString) ← splitHashList hlist
  if blocklist = [] then none
  else some (List.replicate (threadCount + 1) (setHashListKey keyListString).1)

/-! The keys in a map -/

/-- Text that is neither split nor taken for a separator of the header. -/
structure Clean (text : List UInt8) : Prop where
  comma : 44 ∉ text
  dash : 45 ∉ text
  colon : 58 ∉ text

instance (text : List UInt8) : Decidable (Clean text) :=
  decidable_of_iff (44 ∉ text ∧ 45 ∉ text ∧ 58 ∉ text)
    ⟨fun h => ⟨h.1, h.2.1, h.2.2⟩, fun h => ⟨h.comma, h.dash, h.colon⟩⟩

/-- A case of the `switch` that is given the key takes it as it is. -/
def KeyRule.Keeps (key : List UInt8) : KeyRule → Prop
  | plain => True
  | atLeast size => size ≤ key.length
  | padded size => key.length = size

instance (key : List UInt8) : (rule : KeyRule) → Decidable (rule.Keeps key)
  | .plain => .isTrue trivial
  | .atLeast size => inferInstanceAs (Decidable (size ≤ key.length))
  | .padded size => inferInstanceAs (Decidable (key.length = size))

theorem KeyRule.newKey_of_keeps {rule : KeyRule} {key : List UInt8} (h : rule.Keeps key) :
    rule.newKey key = some key := by
  cases rule with
  | plain => rfl
  | atLeast size => exact if_pos h
  | padded size => exact if_pos h

theorem Clean.zeroPad {sigkey : List UInt8} (h : Clean sigkey) (size : ℕ) :
    Clean (zeroPad size sigkey) := by
  unfold Go.zeroPad
  constructor
  · simp [h.comma]
  · simp [h.dash]
  · simp [h.colon]

/-- A key that is assigned is kept when it comes back. -/
theorem KeyRule.newKey_keeps {rule : KeyRule} {sigkey key : List UInt8} (hclean : Clean sigkey)
    (h : rule.newKey sigkey = some key) : Clean key ∧ rule.Keeps key := by
  cases rule with
  | plain =>
    obtain rfl := Option.some.inj h
    exact ⟨hclean, trivial⟩
  | atLeast size =>
    rw [newKey] at h
    split_ifs at h with hsize
    obtain rfl := Option.some.inj h
    exact ⟨hclean, hsize⟩
  | padded size =>
    rw [newKey] at h
    split_ifs at h with hsize hshort
    · obtain rfl := Option.some.inj h
      exact ⟨hclean, hsize⟩
    · obtain rfl := Option.some.inj h
      refine ⟨hclean.zeroPad size, ?_⟩
      rw [Keeps, zeroPad, List.length_append, List.length_replicate]
      omega

/-- The key of every case is clean and kept, and only a plain one can be missing. -/
def Sound (keylist : KeyMap) : Prop :=
  ∀ sig rule, keyRule sig = some rule →
    (keylist sig = none → rule = .plain) ∧ ∀ key ∈ keylist sig, Clean key ∧ rule.Keeps key

theorem mem_keyRules {sig : List UInt8} {rule : KeyRule} (h : keyRule sig = some rule) :
    ∃ row ∈ keyRules, ascii row.1 = sig ∧ row.2 = rule := by
  obtain ⟨row, hfind, hrule⟩ := Option.map_eq_some_iff.mp h
  exact ⟨row, List.mem_of_find?_eq_some hfind, by simpa using List.find?_some hfind, hrule⟩

theorem clean_of_keyRule {sig : List UInt8} {rule : KeyRule} (h : keyRule sig = some rule) :
    Clean sig := by
  have hrows : ∀ row ∈ keyRules, Clean (ascii row.1) := by decide +kernel
  obtain ⟨row, hrow, rfl, -⟩ := mem_keyRules h
  exact hrows row hrow

theorem sound_defaultKeylist : Sound defaultKeylist := by
  have hrows : ∀ row ∈ keyRules, (defaultKeylist (ascii row.1) = none → row.2 = .plain) ∧
      ∀ key ∈ defaultKeylist (ascii row.1), Clean key ∧ row.2.Keeps key := by
    decide +kernel
  intro sig rule h
  obtain ⟨row, hrow, rfl, rfl⟩ := mem_keyRules h
  exact hrows row hrow

/-- After an assignment the map has the key that is in the result, and assigning
that key again does what this assignment did. -/
theorem Sound.assign {keylist : KeyMap} (h : Sound keylist) {sig sigkey : List UInt8}
    {rule : KeyRule} (hrule : keyRule sig = some rule) (hclean : Clean sigkey) :
    ∃ key, Clean key ∧ rule.Keeps key ∧
      rule.assign sig sigkey keylist = Function.update keylist sig (some key) := by
  obtain ⟨hplain, hkeys⟩ := h sig rule hrule
  unfold KeyRule.assign
  cases hnew : rule.newKey sigkey with
  | some key =>
    obtain ⟨hclean', hkeeps⟩ := KeyRule.newKey_keeps hclean hnew
    exact ⟨key, hclean', hkeeps, rfl⟩
  | none =>
    cases hold : keylist sig with
    | none =>
      rw [hplain hold] at hnew
      cases hnew
    | some key =>
      obtain ⟨hclean', hkeeps⟩ := hkeys key hold
      refine ⟨key, hclean', hkeeps, ?_⟩
      rw [← hold, Function.update_eq_self]

theorem Sound.update {keylist : KeyMap} (h : Sound keylist) {sig key : List UInt8}
    {rule : KeyRule} (hrule : keyRule sig = some rule) (hclean : Clean key)
    (hkeeps : rule.Keeps key) : Sound (Function.update keylist sig (some key)) := by
  intro sig' rule' hrule'
  rcases eq_or_ne sig' sig with rfl | hne
  · rw [hrule, Option.some.injEq] at hrule'
    subst hrule'
    simp [hclean, hkeeps]
  · rw [Function.update_of_ne hne]
    exact h sig' rule' hrule'

/-! The result, read again -/

/-- The signatures and keys of a result. -/
def resultText (keys : List (List UInt8 × List UInt8)) : List UInt8 :=
  keys.flatMap fun key => keyText key.1 key.2

/-- The state of the loop is one that its own result leads to. -/
structure Settled (s : KeyMap × List UInt8) : Prop where
  sound : Sound s.1
  again : ∃ keys : List (List UInt8 × List UInt8), s.2 = resultText keys ∧
    (∀ key ∈ keys, Clean key.1 ∧ Clean key.2) ∧
    keys.foldl (fun s key => setKey s (key.1 ++ 58 :: key.2)) (defaultKeylist, []) = s

theorem settled_default : Settled (defaultKeylist, []) where
  sound := sound_defaultKeylist
  again := ⟨[], rfl, by simp, rfl⟩

theorem setKey_keyText {sig key : List UInt8} {rule : KeyRule} (hrule : keyRule sig = some rule)
    (hkey : 58 ∉ key) (s : KeyMap × List UInt8) :
    setKey s (sig ++ 58 :: key) =
      (rule.assign sig key s.1, s.2 ++ keyText sig ((rule.assign sig key s.1 sig).getD [])) := by
  rw [setKey, List.splitOn_append_cons_self_of_not_mem (clean_of_keyRule hrule).colon,
    List.splitOn_eq_singleton hkey]
  dsimp only
  rw [hrule]

/-- One part keeps the state settled, whatever it is, as long as its key is clean. -/
theorem Settled.setKey {s : KeyMap × List UInt8} (h : Settled s) {val : List UInt8}
    (hval : ∀ sig sigkey, val.splitOn 58 = [sig, sigkey] → Clean sigkey) :
    Settled (setKey s val) := by
  rw [Go.setKey]
  split
  · rename_i sig sigkey hsplit
    split
    · rename_i rule hrule
      obtain ⟨key, hclean, hkeeps, hassign⟩ := h.sound.assign hrule (hval sig sigkey hsplit)
      obtain ⟨keys, hresult, hkeys, hagain⟩ := h.again
      have hsame : rule.assign sig key s.1 = Function.update s.1 sig (some key) := by
        rw [KeyRule.assign, KeyRule.newKey_of_keeps hkeeps]
      refine ⟨?_, keys ++ [(sig, key)], ?_, ?_, ?_⟩
      · rw [hassign]
        exact h.sound.update hrule hclean hkeeps
      · rw [hassign, hresult]
        simp [resultText]
      · simp only [List.mem_append, List.mem_singleton]
        rintro p (hp | rfl)
        · exact hkeys p hp
        · exact ⟨clean_of_keyRule hrule, hclean⟩
      · rw [List.foldl_append, hagain, List.foldl_cons, List.foldl_nil,
          setKey_keyText hrule hclean.colon, hsame, hassign]
    · exact h
  · exact h

/-- Parts with a comma behind each, taken apart. -/
theorem splitOn_resultText {keys : List (List UInt8 × List UInt8)}
    (h : ∀ key ∈ keys, Clean key.1 ∧ Clean key.2) :
    (resultText keys ++ [44]).splitOn 44 =
      keys.map (fun key => key.1 ++ 58 :: key.2) ++ [[], []] := by
  induction keys with
  | nil => rfl
  | cons key keys ih =>
    obtain ⟨hsig, hkey⟩ := h key List.mem_cons_self
    have hcomma : 44 ∉ key.1 ++ 58 :: key.2 := by simp [hsig.comma, hkey.comma]
    have hsplit : resultText (key :: keys) ++ [44] =
        (key.1 ++ 58 :: key.2) ++ 44 :: (resultText keys ++ [44]) := by
      simp [resultText, keyText]
    rw [hsplit, List.splitOn_append_cons_self_of_not_mem hcomma,
      ih fun key hkey => h key (List.mem_cons_of_mem _ hkey), List.map_cons, List.cons_append]

theorem setKey_nil (s : KeyMap × List UInt8) : setKey s [] = s := by
  rw [setKey, List.splitOn_nil]

theorem Settled.setHashListKey_eq {s : KeyMap × List UInt8} (h : Settled s) :
    setHashListKey s.2 = s := by
  obtain ⟨keys, hresult, hkeys, hagain⟩ := h.again
  rw [setHashListKey, hresult, splitOn_resultText hkeys, List.foldl_append, List.foldl_map, hagain,
    List.foldl_cons, List.foldl_cons, List.foldl_nil, setKey_nil, setKey_nil]

/-! What the pattern accepts -/

theorem clean_of_xdigits {value : List UInt8} (h : value.all isXdigit = true) : Clean value := by
  have hmem {c : UInt8} (hc : isXdigit c = false) : c ∉ value := by
    intro hmem
    rw [List.all_eq_true.mp h c hmem] at hc
    cases hc
  exact ⟨hmem rfl, hmem rfl, hmem rfl⟩

theorem keyMatches_of_mem {keylist val : List UInt8} (h : keylistMatches keylist = true)
    (hval : val ∈ keylist.splitOn 44) : val = [] ∨ keyMatches val = true := by
  unfold keylistMatches at h
  rw [Bool.and_eq_true] at h
  obtain ⟨hfront, hlast⟩ := h
  have hsplit := List.dropLast_append_getLast (List.splitOn_ne_nil 44 keylist)
  rw [List.getLast?_eq_some_getLast (List.splitOn_ne_nil 44 keylist)] at hlast
  rw [← hsplit, List.mem_append, List.mem_singleton] at hval
  rcases hval with hval | rfl
  · exact .inr (List.all_eq_true.mp hfront val hval)
  · simpa using hlast

theorem clean_of_keyMatches {val sig sigkey : List UInt8} (h : val = [] ∨ keyMatches val = true)
    (hsplit : val.splitOn 58 = [sig, sigkey]) : Clean sigkey := by
  rcases h with rfl | h
  · rw [List.splitOn_nil] at hsplit
    cases hsplit
  · rw [keyMatches, hsplit] at h
    simp only [Bool.and_eq_true] at h
    exact clean_of_xdigits h.2

theorem splitOn_append_comma (keylist : List UInt8) :
    (keylist ++ [44]).splitOn 44 = keylist.splitOn 44 ++ [[]] := by
  rw [List.splitOn_append_cons_self, List.splitOn_nil]

theorem setHashListKey_foldl (keylist : List UInt8) :
    setHashListKey keylist = (keylist.splitOn 44).foldl setKey (defaultKeylist, []) := by
  rw [setHashListKey, splitOn_append_comma, List.foldl_append, List.foldl_cons, List.foldl_nil,
    setKey_nil]

/-- The loop over an accepted list ends in a settled state. -/
theorem settled_setHashListKey {keylist : List UInt8} (h : keylistMatches keylist = true) :
    Settled (setHashListKey keylist) := by
  have hrun {vals : List (List UInt8)} (hvals : ∀ val ∈ vals, val = [] ∨ keyMatches val = true)
      {s : KeyMap × List UInt8} (hs : Settled s) : Settled (vals.foldl setKey s) := by
    induction vals generalizing s with
    | nil => exact hs
    | cons val vals ih =>
      rw [List.foldl_cons]
      apply ih fun v hv => hvals v (List.mem_cons_of_mem _ hv)
      exact hs.setKey fun sig sigkey => clean_of_keyMatches (hvals val List.mem_cons_self)
  rw [setHashListKey_foldl]
  exact hrun (fun val => keyMatches_of_mem h) settled_default

/-! The keys that are not named -/

/-- The names in a key list. -/
def keyNames (keylist : List UInt8) : List (List UInt8) :=
  (keylist.splitOn 44).filterMap fun val =>
    match val.splitOn 58 with
    | [sig, _] => some sig
    | _ => none

theorem setKey_of_ne {val sig : List UInt8} (h : ∀ sigkey, val.splitOn 58 ≠ [sig, sigkey])
    (s : KeyMap × List UInt8) : (setKey s val).1 sig = s.1 sig := by
  rw [setKey]
  split
  · rename_i sig' sigkey hsplit
    have hne : sig ≠ sig' := by
      rintro rfl
      exact h sigkey hsplit
    split
    · rename_i rule hrule
      rw [KeyRule.assign]
      split
      · exact Function.update_of_ne hne _ _
      · rfl
    · rfl
  · rfl

/-- A key that is not named keeps its default. -/
theorem setHashListKey_of_notMem {keylist sig : List UInt8} (h : sig ∉ keyNames keylist) :
    (setHashListKey keylist).1 sig = defaultKeylist sig := by
  have hrun {vals : List (List UInt8)}
      (hvals : ∀ val ∈ vals, ∀ sigkey, val.splitOn 58 ≠ [sig, sigkey])
      (s : KeyMap × List UInt8) : (vals.foldl setKey s).1 sig = s.1 sig := by
    induction vals generalizing s with
    | nil => rfl
    | cons val vals ih =>
      rw [List.foldl_cons, ih fun v hv => hvals v (List.mem_cons_of_mem _ hv)]
      exact setKey_of_ne (hvals val List.mem_cons_self) s
  rw [setHashListKey_foldl]
  apply hrun
  intro val hval sigkey hsplit
  exact h (List.mem_filterMap.mpr ⟨val, hval, by rw [hsplit]⟩)

/-! The encoder and the decoder agree -/

theorem dash_notMem_result {s : KeyMap × List UInt8} (h : Settled s) : 45 ∉ s.2 := by
  obtain ⟨keys, hresult, hkeys, -⟩ := h.again
  rw [hresult]
  intro hmem
  obtain ⟨key, hkey, hmem⟩ := List.mem_flatMap.mp hmem
  obtain ⟨hsig, hvalue⟩ := hkeys key hkey
  simp [keyText, hsig.dash, hvalue.dash] at hmem

/-- Both maps of the encoder and the map of every context of the decoder are
the same, and the result of `SetHashListKey` is not changed by it any more. -/
theorem keys_agree {keylist : List UInt8} (h : keylistMatches keylist = true) :
    (createHashListMaps keylist).blockKeys = (createHashListMaps keylist).fileKeys ∧
      (∀ filehashList blockhashList threadCount,
        decodeFileKeys threadCount
            (hashListString filehashList blockhashList (createHashListMaps keylist).keylist) =
          if blockhashList = [] then none
          else some (List.replicate (threadCount + 1) (createHashListMaps keylist).fileKeys)) ∧
      (∀ n, (fun s : KeyMap × List UInt8 => setHashListKey s.2)^[n] (setHashListKey keylist) =
        ((createHashListMaps keylist).fileKeys, (createHashListMaps keylist).keylist)) ∧
      ∀ sig ∉ keyNames keylist, (createHashListMaps keylist).fileKeys sig = defaultKeylist sig := by
  have hsettled := settled_setHashListKey h
  have hagain := hsettled.setHashListKey_eq
  have hmaps : createHashListMaps keylist =
      ⟨(setHashListKey keylist).1, (setHashListKey keylist).1, (setHashListKey keylist).2⟩ := by
    rw [createHashListMaps]
    dsimp only
    rw [hagain]
  rw [hmaps]
  refine ⟨rfl, ?_, ?_, fun sig => setHashListKey_of_notMem⟩
  · intro filehashList blockhashList threadCount
    rw [decodeFileKeys, splitHashList_hashListString _ _ (dash_notMem_result hsettled)]
    change (if joinNames blockhashList = [] then none else _) = _
    rcases eq_or_ne blockhashList [] with rfl | hne
    · rfl
    · rw [if_neg (joinNames_ne_nil hne), if_neg hne, hagain]
  · intro n
    exact Function.iterate_fixed hagain n

/-- A key for `hw64` that is filled up, one that is too short, and an unknown name. -/
theorem keys_agree_hw64 : keylistMatches (ascii "hw64:11,hw64:2,foo:1,") = true ∧
    (createHashListMaps (ascii "hw64:11,hw64:2,foo:1,")).blockKeys =
      (createHashListMaps (ascii "hw64:11,hw64:2,foo:1,")).fileKeys :=
  have h : keylistMatches (ascii "hw64:11,hw64:2,foo:1,") = true := by decide +kernel
  ⟨h, (keys_agree h).1⟩

end Mdencode.Go
