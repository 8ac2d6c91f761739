import Mdencode.Lib.WordHash
import Mdencode.Cpp.FileHash

/-! The vendored hash functions that lose nothing in any of their steps:
`crc32`, `crc64`, `fasthash64`, `mx3`, `seahash` and the four of `fnv.h`. What
each of them notices follows from what one step does. -/

namespace Mdencode.Cpp

open Mdencode.Bytes Mdencode.Chunks Mdencode.WordHash

/-- The number a pointer to `uint64_t` leads to. What comes short of a word has
been copied into a padding of zeros. -/
def uint64At (pos : List UInt8) : BitVec 64 := BitVec.ofNat 64 (ofLE (pos.take 8))

/-- A loop that moves its pointer on by so many bytes in each pass. -/
def forPasses {σ : Type} (bytes : ℕ) (body : List UInt8 → σ → σ) :
    ℕ → List UInt8 → σ → σ × List UInt8
  | 0, pos, s => (s, pos)
  | n + 1, pos, s => forPasses bytes body n (pos.drop bytes) (body pos s)

/-- A loop over whole words. -/
def forWords {σ : Type} (body : σ → BitVec 64 → σ) (n : ℕ) (pos : List UInt8) (h : σ) :
    σ × List UInt8 :=
  forPasses 8 (fun pos h => body h (uint64At pos)) n pos h

/-- A switch whose cases fall through from `n` to 1 and each put a byte in its place. -/
def fallThrough (op : BitVec 64 → BitVec 64 → BitVec 64) (n : ℕ) (tail : List UInt8) : BitVec 64 :=
  (List.range n).foldr (fun k v => op v ((tail.getD k 0).toBitVec.setWidth 64 <<< (8 * k))) 0

/-- `mix` of `fasthash.cpp`. -/
def fasthashMix (h : BitVec 64) : BitVec 64 :=
  let h := h ^^^ (h >>> 23)
  let h := h * 0x2127599bf4325c37
  h ^^^ (h >>> 47)

def fasthash64 (buf : List UInt8) (seed : BitVec 64) : BitVec 64 :=
  let len := buf.length
  let m : BitVec 64 := 0x880355f21e6d1965
  let h := seed ^^^ (BitVec.ofNat 64 len * m)
  let (h, pos2) := forWords (fun h v => (h ^^^ fasthashMix v) * m) (len / 8) buf h
  let h := if len % 8 = 0 then h
    else (h ^^^ fasthashMix (fallThrough (· ^^^ ·) (len % 8) pos2)) * m
  fasthashMix h

/-- `C` of `mx3.h`. -/
def mx3C : BitVec 64 := 0xbea225f9eb34556d

/-- `mix` of `mx3.h`. -/
def mx3Mix (x : BitVec 64) : BitVec 64 :=
  let x := x * mx3C
  let x := x ^^^ (x >>> 33)
  let x := x * mx3C
  let x := x ^^^ (x >>> 29)
  let x := x * mx3C
  x ^^^ (x >>> 39)

def mixStream (h x : BitVec 64) : BitVec 64 :=
  let x := x * mx3C
  let x := x ^^^ ((x >>> 57) ^^^ (x >>> 33))
  let x := x * mx3C
  let h := h + x
  h * mx3C

/-- `mx3::hash`. The first loop takes four words at a time. -/
def mx3Hash (buf : List UInt8) (seed : BitVec 64) : BitVec 64 :=
  let len := buf.length
  let h := seed ^^^ BitVec.ofNat 64 len
  let (h, buf64) := forWords mixStream (4 * (len / 32)) buf h
  let (h, tail) := forWords mixStream (len % 32 / 8) buf64 h
  let h := if len % 8 = 0 then h else mixStream h (fallThrough (· ||| ·) (len % 8) tail)
  mx3Mix h

def seaSwap64 (x : BitVec 64) : BitVec 64 :=
  ((x <<< 56) &&& 0xff00000000000000) ||| ((x <<< 40) &&& 0x00ff000000000000) |||
    ((x <<< 24) &&& 0x0000ff0000000000) ||| ((x <<< 8) &&& 0x000000ff00000000) |||
    ((x >>> 8) &&& 0x00000000ff000000) ||| ((x >>> 24) &&& 0x0000000000ff0000) |||
    ((x >>> 40) &&& 0x000000000000ff00) ||| ((x >>> 56) &&& 0x00000000000000ff)

def diffuse (val : BitVec 64) : BitVec 64 :=
  let val := val * 0x6eed0e9da4d94a4f
  let a := val >>> 32
  let b := val >>> 60
  let val := val ^^^ (a >>> b)
  val * 0x6eed0e9da4d94a4f

/-- The variables of `seahash`. -/
structure SeaLanes where
  a : BitVec 64
  b : BitVec 64
  c : BitVec 64
  d : BitVec 64

/-- A pass of the loop takes 32 bytes. -/
def seaBody (p : List UInt8) (s : SeaLanes) : SeaLanes where
  a := diffuse (s.a ^^^ uint64At p)
  b := diffuse (s.b ^^^ uint64At (p.drop 8))
  c := diffuse (s.c ^^^ uint64At (p.drop 16))
  d := diffuse (s.d ^^^ uint64At (p.drop 24))

/-- The switch over what is left. -/
def seaTail (len : ℕ) (p : List UInt8) (s : SeaLanes) : SeaLanes :=
  let a := diffuse (s.a ^^^ uint64At p)
  let b := diffuse (s.b ^^^ uint64At (p.drop 8))
  let c := diffuse (s.c ^^^ uint64At (p.drop 16))
  let d := diffuse (s.d ^^^ uint64At (p.drop 24))
  if 25 ≤ len then { a, b, c, d }
  else if 17 ≤ len then { a, b, c, d := s.d }
  else if 9 ≤ len then { a, b, c := s.c, d := s.d }
  else if 1 ≤ len then { a, b := s.b, c := s.c, d := s.d }
  else s

def seahash (key : List UInt8) (seed : BitVec 64) : BitVec 64 :=
  let len := key.length
  let s : SeaLanes :=
    { a := 0x16f11fe89b0d677c ^^^ seed
      b := 0xb480a793d8e6c86c
      c := 0x6fe2e5aaf078ebc9
      d := 0x14f994a4c5259381 }
  let (s, p) := forPasses 32 seaBody (len / 32) key s
  let s := seaTail (len % 32) p s
  let a := s.a ^^^ s.b
  let c := s.c ^^^ s.d
  let a := a ^^^ c
  let a := a ^^^ BitVec.ofNat 64 len
  seaSwap64 (diffuse a)

def crc32Tab : List (BitVec 32) :=
  [0x00000000, 0x77073096, 0xee0e612c, 0x990951ba, 0x076dc419, 0x706af48f, 0xe963a535, 0x9e6495a3,
    0x0edb8832, 0x79dcb8a4, 0xe0d5e91e, 0x97d2d988, 0x09b64c2b, 0x7eb17cbd, 0xe7b82d07, 0x90bf1d91,
    0x1db71064, 0x6ab020f2, 0xf3b97148, 0x84be41de, 0x1adad47d, 0x6ddde4eb, 0xf4d4b551, 0x83d385c7,
    0x136c9856, 0x646ba8c0, 0xfd62f97a, 0x8a65c9ec, 0x14015c4f, 0x63066cd9, 0xfa0f3d63, 0x8d080df5,
    0x3b6e20c8, 0x4c69105e, 0xd56041e4, 0xa2677172, 0x3c03e4d1, 0x4b04d447, 0xd20d85fd, 0xa50ab56b,
    0x35b5a8fa, 0x42b2986c, 0xdbbbc9d6, 0xacbcf940, 0x32d86ce3, 0x45df5c75, 0xdcd60dcf, 0xabd13d59,
    0x26d930ac, 0x51de003a, 0xc8d75180, 0xbfd06116, 0x21b4f4b5, 0x56b3c423, 0xcfba9599, 0xb8bda50f,
    0x2802b89e, 0x5f058808, 0xc60cd9b2, 0xb10be924, 0x2f6f7c87, 0x58684c11, 0xc1611dab, 0xb6662d3d,
    0x76dc4190, 0x01db7106, 0x98d220bc, 0xefd5102a, 0x71b18589, 0x06b6b51f, 0x9fbfe4a5, 0xe8b8d433,
    0x7807c9a2, 0x0f00f934, 0x9609a88e, 0xe10e9818, 0x7f6a0dbb, 0x086d3d2d, 0x91646c97, 0xe6635c01,
    0x6b6b51f4, 0x1c6c6162, 0x856530d8, 0xf262004e, 0x6c0695ed, 0x1b01a57b, 0x8208f4c1, 0xf50fc457,
    0x65b0d9c6, 0x12b7e950, 0x8bbeb8ea, 0xfcb9887c, 0x62dd1ddf, 0x15da2d49, 0x8cd37cf3, 0xfbd44c65,
    0x4db26158, 0x3ab551ce, 0xa3bc0074, 0xd4bb30e2, 0x4adfa541, 0x3dd895d7, 0xa4d1c46d, 0xd3d6f4fb,
    0x4369e96a, 0x346ed9fc, 0xad678846, 0xda60b8d0, 0x44042d73, 0x33031de5, 0xaa0a4c5f, 0xdd0d7cc9,
    0x5005713c, 0x270241aa, 0xbe0b1010, 0xc90c2086, 0x5768b525, 0x206f85b3, 0xb966d409, 0xce61e49f,
    0x5edef90e, 0x29d9c998, 0xb0d09822, 0xc7d7a8b4, 0x59b33d17, 0x2eb40d81, 0xb7bd5c3b, 0xc0ba6cad,
    0xedb88320, 0x9abfb3b6, 0x03b6e20c, 0x74b1d29a, 0xead54739, 0x9dd277af, 0x04db2615, 0x73dc1683,
    0xe3630b12, 0x94643b84, 0x0d6d6a3e, 0x7a6a5aa8, 0xe40ecf0b, 0x9309ff9d, 0x0a00ae27, 0x7d079eb1,
    0xf00f9344, 0x8708a3d2, 0x1e01f268, 0x6906c2fe, 0xf762575d, 0x806567cb, 0x196c3671, 0x6e6b06e7,
    0xfed41b76, 0x89d32be0, 0x10da7a5a, 0x67dd4acc, 0xf9b9df6f, 0x8ebeeff9, 0x17b7be43, 0x60b08ed5,
    0xd6d6a3e8, 0xa1d1937e, 0x38d8c2c4, 0x4fdff252, 0xd1bb67f1, 0xa6bc5767, 0x3fb506dd, 0x48b2364b,
    0xd80d2bda, 0xaf0a1b4c, 0x36034af6, 0x41047a60, 0xdf60efc3, 0xa867df55, 0x316e8eef, 0x4669be79,
    0xcb61b38c, 0xbc66831a, 0x256fd2a0, 0x5268e236, 0xcc0c7795, 0xbb0b4703, 0x220216b9, 0x5505262f,
    0xc5ba3bbe, 0xb2bd0b28, 0x2bb45a92, 0x5cb36a04, 0xc2d7ffa7, 0xb5d0cf31, 0x2cd99e8b, 0x5bdeae1d,
    0x9b64c2b0, 0xec63f226, 0x756aa39c, 0x026d930a, 0x9c0906a9, 0xeb0e363f, 0x72076785, 0x05005713,
    0x95bf4a82, 0xe2b87a14, 0x7bb12bae, 0x0cb61b38, 0x92d28e9b, 0xe5d5be0d, 0x7cdcefb7, 0x0bdbdf21,
    0x86d3d2d4, 0xf1d4e242, 0x68ddb3f8, 0x1fda836e, 0x81be16cd, 0xf6b9265b, 0x6fb077e1, 0x18b74777,
    0x88085ae6, 0xff0f6a70, 0x66063bca, 0x11010b5c, 0x8f659eff, 0xf862ae69, 0x616bffd3, 0x166ccf45,
    0xa00ae278, 0xd70dd2ee, 0x4e048354, 0x3903b3c2, 0xa7672661, 0xd06016f7, 0x4969474d, 0x3e6e77db,
    0xaed16a4a, 0xd9d65adc, 0x40df0b66, 0x37d83bf0, 0xa9bcae53, 0xdebb9ec5, 0x47b2cf7f, 0x30b5ffe9,
    0xbdbdf21c, 0xcabac28a, 0x53b39330, 0x24b4a3a6, 0xbad03605, 0xcdd70693, 0x54de5729, 0x23d967bf,
    0xb3667a2e, 0xc4614ab8, 0x5d681b02, 0x2a6f2b94, 0xb40bbe37, 0xc30c8ea1, 0x5a05df1b, 0x2d02ef8d]

/-- A pass of the loop of `crc32`. -/
def crc32Step (crc : BitVec 32) (p : UInt8) : BitVec 32 :=
  crc32Tab.getD ((crc ^^^ p.toBitVec.setWidth 32) &&& 0xff).toNat 0 ^^^ (crc >>> 8)

def crc32 (seed : BitVec 32) (buf : List UInt8) : BitVec 32 := buf.foldl crc32Step seed

def crc64Tab : List (BitVec 64) :=
  [0x0000000000000000, 0x42f0e1eba9ea3693, 0x85e1c3d753d46d26, 0xc711223cfa3e5bb5,
    0x493366450e42ecdf, 0x0bc387aea7a8da4c, 0xccd2a5925d9681f9, 0x8e224479f47cb76a,
    0x9266cc8a1c85d9be, 0xd0962d61b56fef2d, 0x17870f5d4f51b498, 0x5577eeb6e6bb820b,
    0xdb55aacf12c73561, 0x99a54b24bb2d03f2, 0x5eb4691841135847, 0x1c4488f3e8f96ed4,
    0x663d78ff90e185ef, 0x24cd9914390bb37c, 0xe3dcbb28c335e8c9, 0xa12c5ac36adfde5a,
    0x2f0e1eba9ea36930, 0x6dfeff5137495fa3, 0xaaefdd6dcd770416, 0xe81f3c86649d3285,
    0xf45bb4758c645c51, 0xb6ab559e258e6ac2, 0x71ba77a2dfb03177, 0x334a9649765a07e4,
    0xbd68d2308226b08e, 0xff9833db2bcc861d, 0x388911e7d1f2dda8, 0x7a79f00c7818eb3b,
    0xcc7af1ff21c30bde, 0x8e8a101488293d4d, 0x499b3228721766f8, 0x0b6bd3c3dbfd506b,
    0x854997ba2f81e701, 0xc7b97651866bd192, 0x00a8546d7c558a27, 0x4258b586d5bfbcb4,
    0x5e1c3d753d46d260, 0x1cecdc9e94ace4f3, 0xdbfdfea26e92bf46, 0x990d1f49c77889d5,
    0x172f5b3033043ebf, 0x55dfbadb9aee082c, 0x92ce98e760d05399, 0xd03e790cc93a650a,
    0xaa478900b1228e31, 0xe8b768eb18c8b8a2, 0x2fa64ad7e2f6e317, 0x6d56ab3c4b1cd584,
    0xe374ef45bf6062ee, 0xa1840eae168a547d, 0x66952c92ecb40fc8, 0x2465cd79455e395b,
    0x3821458aada7578f, 0x7ad1a461044d611c, 0xbdc0865dfe733aa9, 0xff3067b657990c3a,
    0x711223cfa3e5bb50, 0x33e2c2240a0f8dc3, 0xf4f3e018f031d676, 0xb60301f359dbe0e5,
    0xda050215ea6c212f, 0x98f5e3fe438617bc, 0x5fe4c1c2b9b84c09, 0x1d14202910527a9a,
    0x93366450e42ecdf0, 0xd1c685bb4dc4fb63, 0x16d7a787b7faa0d6, 0x5427466c1e109645,
    0x4863ce9ff6e9f891, 0x0a932f745f03ce02, 0xcd820d48a53d95b7, 0x8f72eca30cd7a324,
    0x0150a8daf8ab144e, 0x43a04931514122dd, 0x84b16b0dab7f7968, 0xc6418ae602954ffb,
    0xbc387aea7a8da4c0, 0xfec89b01d3679253, 0x39d9b93d2959c9e6, 0x7b2958d680b3ff75,
    0xf50b1caf74cf481f, 0xb7fbfd44dd257e8c, 0x70eadf78271b2539, 0x321a3e938ef113aa,
    0x2e5eb66066087d7e, 0x6cae578bcfe24bed, 0xabbf75b735dc1058, 0xe94f945c9c3626cb,
    0x676dd025684a91a1, 0x259d31cec1a0a732, 0xe28c13f23b9efc87, 0xa07cf2199274ca14,
    0x167ff3eacbaf2af1, 0x548f120162451c62, 0x939e303d987b47d7, 0xd16ed1d631917144,
    0x5f4c95afc5edc62e, 0x1dbc74446c07f0bd, 0xdaad56789639ab08, 0x985db7933fd39d9b,
    0x84193f60d72af34f, 0xc6e9de8b7ec0c5dc, 0x01f8fcb784fe9e69, 0x43081d5c2d14a8fa,
    0xcd2a5925d9681f90, 0x8fdab8ce70822903, 0x48cb9af28abc72b6, 0x0a3b7b1923564425,
    0x70428b155b4eaf1e, 0x32b26afef2a4998d, 0xf5a348c2089ac238, 0xb753a929a170f4ab,
    0x3971ed50550c43c1, 0x7b810cbbfce67552, 0xbc902e8706d82ee7, 0xfe60cf6caf321874,
    0xe224479f47cb76a0, 0xa0d4a674ee214033, 0x67c58448141f1b86, 0x253565a3bdf52d15,
    0xab1721da49899a7f, 0xe9e7c031e063acec, 0x2ef6e20d1a5df759, 0x6c0603e6b3b7c1ca,
    0xf6fae5c07d3274cd, 0xb40a042bd4d8425e, 0x731b26172ee619eb, 0x31ebc7fc870c2f78,
    0xbfc9838573709812, 0xfd39626eda9aae81, 0x3a28405220a4f534, 0x78d8a1b9894ec3a7,
    0x649c294a61b7ad73, 0x266cc8a1c85d9be0, 0xe17dea9d3263c055, 0xa38d0b769b89f6c6,
    0x2daf4f0f6ff541ac, 0x6f5faee4c61f773f, 0xa84e8cd83c212c8a, 0xeabe6d3395cb1a19,
    0x90c79d3fedd3f122, 0xd2377cd44439c7b1, 0x15265ee8be079c04, 0x57d6bf0317edaa97,
    0xd9f4fb7ae3911dfd, 0x9b041a914a7b2b6e, 0x5c1538adb04570db, 0x1ee5d94619af4648,
    0x02a151b5f156289c, 0x4051b05e58bc1e0f, 0x87409262a28245ba, 0xc5b073890b687329,
    0x4b9237f0ff14c443, 0x0962d61b56fef2d0, 0xce73f427acc0a965, 0x8c8315cc052a9ff6,
    0x3a80143f5cf17f13, 0x7870f5d4f51b4980, 0xbf61d7e80f251235, 0xfd913603a6cf24a6,
    0x73b3727a52b393cc, 0x31439391fb59a55f, 0xf652b1ad0167feea, 0xb4a25046a88dc879,
    0xa8e6d8b54074a6ad, 0xea16395ee99e903e, 0x2d071b6213a0cb8b, 0x6ff7fa89ba4afd18,
    0xe1d5bef04e364a72, 0xa3255f1be7dc7ce1, 0x64347d271de22754, 0x26c49cccb40811c7,
    0x5cbd6cc0cc10fafc, 0x1e4d8d2b65facc6f, 0xd95caf179fc497da, 0x9bac4efc362ea149,
    0x158e0a85c2521623, 0x577eeb6e6bb820b0, 0x906fc95291867b05, 0xd29f28b9386c4d96,
    0xcedba04ad0952342, 0x8c2b41a1797f15d1, 0x4b3a639d83414e64, 0x09ca82762aab78f7,
    0x87e8c60fded7cf9d, 0xc51827e4773df90e, 0x020905d88d03a2bb, 0x40f9e43324e99428,
    0x2cffe7d5975e55e2, 0x6e0f063e3eb46371, 0xa91e2402c48a38c4, 0xebeec5e96d600e57,
    0x65cc8190991cb93d, 0x273c607b30f68fae, 0xe02d4247cac8d41b, 0xa2dda3ac6322e288,
    0xbe992b5f8bdb8c5c, 0xfc69cab42231bacf, 0x3b78e888d80fe17a, 0x7988096371e5d7e9,
    0xf7aa4d1a85996083, 0xb55aacf12c735610, 0x724b8ecdd64d0da5, 0x30bb6f267fa73b36,
    0x4ac29f2a07bfd00d, 0x08327ec1ae55e69e, 0xcf235cfd546bbd2b, 0x8dd3bd16fd818bb8,
    0x03f1f96f09fd3cd2, 0x41011884a0170a41, 0x86103ab85a2951f4, 0xc4e0db53f3c36767,
    0xd8a453a01b3a09b3, 0x9a54b24bb2d03f20, 0x5d45907748ee6495, 0x1fb5719ce1045206,
    0x919735e51578e56c, 0xd367d40ebc92d3ff, 0x1476f63246ac884a, 0x568617d9ef46bed9,
    0xe085162ab69d5e3c, 0xa275f7c11f7768af, 0x6564d5fde549331a, 0x279434164ca30589,
    0xa9b6706fb8dfb2e3, 0xeb46918411358470, 0x2c57b3b8eb0bdfc5, 0x6ea7525342e1e956,
    0x72e3daa0aa188782, 0x30133b4b03f2b111, 0xf7021977f9cceaa4, 0xb5f2f89c5026dc37,
    0x3bd0bce5a45a6b5d, 0x79205d0e0db05dce, 0xbe317f32f78e067b, 0xfcc19ed95e6430e8,
    0x86b86ed5267cdbd3, 0xc4488f3e8f96ed40, 0x0359ad0275a8b6f5, 0x41a94ce9dc428066,
    0xcf8b0890283e370c, 0x8d7be97b81d4019f, 0x4a6acb477bea5a2a, 0x089a2aacd2006cb9,
    0x14dea25f3af9026d, 0x562e43b4931334fe, 0x913f6188692d6f4b, 0xd3cf8063c0c759d8,
    0x5dedc41a34bbeeb2, 0x1f1d25f19d51d821, 0xd80c07cd676f8394, 0x9afce626ce85b507]

/-- The index `i` of a pass of `crc64`, from an `int` that holds the top byte of the register. -/
def crc64Index (crc : BitVec 64) (data : UInt8) : BitVec 32 :=
  ((crc >>> 56).setWidth 32 ^^^ data.toBitVec.setWidth 32) &&& 0xff

def crc64Step (crc : BitVec 64) (data : UInt8) : BitVec 64 :=
  crc64Tab.getD (crc64Index crc data).toNat 0 ^^^ (crc <<< 8)

def crc64 (seed : BitVec 64) (data : List UInt8) : BitVec 64 := data.foldl crc64Step seed

/-- `fnv32_1` and `fnv64_1`. -/
def fnv1 {w : ℕ} (prime : BitVec w) (data : List UInt8) (hash : BitVec w) : BitVec w :=
  data.foldl (fun hash ptr => hash * prime ^^^ ptr.toBitVec.setWidth w) hash

/-- `fnv32_1a` and `fnv64_1a`. -/
def fnv1a {w : ℕ} (prime : BitVec w) (data : List UInt8) (hash : BitVec w) : BitVec w :=
  data.foldl (fun hash ptr => (ptr.toBitVec.setWidth w ^^^ hash) * prime) hash

/-! Words of a buffer -/

theorem ofLE_cons (b : UInt8) (bytes : List UInt8) :
    ofLE (b :: bytes) = 256 * ofLE bytes + b.toNat := by
  rw [ofLE, List.reverse_cons, ofBE_append, ofLE]
  simp [ofBE]
  ring

theorem ofLE_inj {xs ys : List UInt8} (hlen : xs.length = ys.length) (h : ofLE xs = ofLE ys) :
    xs = ys :=
  List.reverse_injective (ofBE_inj (by simp [hlen]) h)

theorem ofLE_lt (bytes : List UInt8) : ofLE bytes < 256 ^ bytes.length := by
  simpa [ofLE] using ofBE_lt bytes.reverse

/-- Bit by bit, the first byte first. -/
theorem testBit_ofLE (bytes : List UInt8) (i : ℕ) :
    (ofLE bytes).testBit i = (bytes.getD (i / 8) 0).toBitVec.getLsbD (i % 8) := by
  induction bytes generalizing i with
  | nil => simp [ofLE, ofBE]
  | cons b bytes ih =>
    have hb : b.toNat < 2 ^ 8 := b.toNat_lt
    rw [ofLE_cons, show 256 = 2 ^ 8 by norm_num, Nat.testBit_two_pow_mul_add _ hb]
    split_ifs with hi
    · rw [Nat.div_eq_of_lt hi, Nat.mod_eq_of_lt hi]
      rfl
    · obtain ⟨j, rfl⟩ := Nat.exists_eq_add_of_le (Nat.le_of_not_lt hi)
      rw [ih, Nat.add_sub_cancel_left, Nat.add_div_left _ (by norm_num), Nat.add_mod_left]
      rfl

theorem uint64At_inj {x y : List UInt8} (hlen : x.length = y.length) (hle : x.length ≤ 8)
    (h : uint64At x = uint64At y) : x = y := by
  have hnat := congrArg BitVec.toNat h
  have hx := ofLE_lt x
  have hy := ofLE_lt y
  have hpow : 256 ^ x.length ≤ 2 ^ 64 :=
    (Nat.pow_le_pow_right (by norm_num) hle).trans (by norm_num)
  rw [← hlen] at hy
  rw [uint64At, uint64At, List.take_of_length_le hle, List.take_of_length_le (hlen ▸ hle),
    BitVec.toNat_ofNat, BitVec.toNat_ofNat, Nat.mod_eq_of_lt (by omega),
    Nat.mod_eq_of_lt (by omega)] at hnat
  exact ofLE_inj hlen hnat

theorem uint64At_take (pos : List UInt8) : uint64At (pos.take 8) = uint64At pos := by
  rw [uint64At, uint64At, List.take_take, Nat.min_self]

/-- The bytes are put into places that are still empty, so it does not matter
whether they are added with `^=` or with `|=`. -/
theorem getLsbD_foldr_byte {op : BitVec 64 → BitVec 64 → BitVec 64} {bop : Bool → Bool → Bool}
    (hop : ∀ x y i, (op x y).getLsbD i = bop (x.getLsbD i) (y.getLsbD i))
    (hleft : ∀ b, bop false b = b) (hright : ∀ b, bop b false = b) (tail : List UInt8) (n : ℕ)
    (v : BitVec 64) (hv : ∀ i < 8 * n, v.getLsbD i = false) {i : ℕ} (hi : i < 64) :
    ((List.range n).foldr (fun k v => op v ((tail.getD k 0).toBitVec.setWidth 64 <<< (8 * k)))
      v).getLsbD i =
        if i < 8 * n then (tail.getD (i / 8) 0).toBitVec.getLsbD (i % 8) else v.getLsbD i := by
  induction n generalizing v with
  | zero => simp
  | succ n ih =>
    have hbyte (j : ℕ) (hj : j < 64) :
        ((tail.getD n 0).toBitVec.setWidth 64 <<< (8 * n)).getLsbD j =
          (decide (8 * n ≤ j) && (tail.getD n 0).toBitVec.getLsbD (j - 8 * n)) := by
      rw [BitVec.getLsbD_shiftLeft, BitVec.getLsbD_setWidth]
      by_cases h : 8 * n ≤ j
      · simp [h, hj, show j - 8 * n < 64 by omega]
      · simp [h]
    rw [List.range_succ, List.foldr_append, List.foldr_cons, List.foldr_nil, ih]
    · rw [hop, hbyte i hi]
      rcases lt_or_ge i (8 * n) with hlt | hge
      · rw [if_pos hlt, if_pos (by omega)]
      · rw [if_neg (by omega), decide_eq_true hge, Bool.true_and]
        split_ifs with hlt
        · rw [hv i hlt, hleft, show i / 8 = n by omega, show i % 8 = i - 8 * n by omega]
        · rw [BitVec.getLsbD_of_ge _ (i - 8 * n) (by omega), hright]
    · intro j hj
      rcases lt_or_ge j 64 with hlt | hge
      · rw [hop, hv j (by omega), hleft, hbyte j hlt, decide_eq_false (by omega), Bool.false_and]
      · exact BitVec.getLsbD_of_ge _ j hge

/-- What falls through is the word. -/
theorem fallThrough_eq {op : BitVec 64 → BitVec 64 → BitVec 64} {bop : Bool → Bool → Bool}
    (hop : ∀ x y i, (op x y).getLsbD i = bop (x.getLsbD i) (y.getLsbD i))
    (hleft : ∀ b, bop false b = b) (hright : ∀ b, bop b false = b) {tail : List UInt8}
    (hle : tail.length ≤ 8) : fallThrough op tail.length tail = uint64At tail := by
  apply BitVec.eq_of_getLsbD_eq
  intro i hi
  rw [fallThrough, getLsbD_foldr_byte hop hleft hright _ _ _ (by simp) hi, uint64At,
    List.take_of_length_le hle, BitVec.getLsbD_ofNat, testBit_ofLE, decide_eq_true hi,
    Bool.true_and]
  split_ifs with hlt
  · rfl
  · rw [List.getD_eq_getElem?_getD, List.getElem?_eq_none (by omega)]
    simp

theorem fallThrough_xor {tail : List UInt8} (hle : tail.length ≤ 8) :
    fallThrough (· ^^^ ·) tail.length tail = uint64At tail :=
  fallThrough_eq (fun _ _ _ => BitVec.getLsbD_xor) Bool.false_xor Bool.xor_false hle

theorem fallThrough_or {tail : List UInt8} (hle : tail.length ≤ 8) :
    fallThrough (· ||| ·) tail.length tail = uint64At tail :=
  fallThrough_eq (fun _ _ _ => BitVec.getLsbD_or) Bool.false_or Bool.or_false hle

section
variable {σ : Type} (body : σ → BitVec 64 → σ)

theorem forWords_add (m n : ℕ) (pos : List UInt8) (h : σ) :
    forWords body (m + n) pos h = forWords body n (forWords body m pos h).2
      (forWords body m pos h).1 := by
  induction m generalizing pos h with
  | zero =>
    rw [Nat.zero_add]
    rfl
  | succ m ih =>
    rw [Nat.add_right_comm]
    exact ih (pos.drop 8) (body h (uint64At pos))

/-- The loop over the whole words, and one more step for what is left. -/
theorem foldl_words (buf : List UInt8) (h : σ) :
    ∃ tail, (forWords body (buf.length / 8) buf h).2 = tail ∧ tail.length = buf.length % 8 ∧
      ((untilEmpty 8 buf).map uint64At).foldl body h =
        if buf.length % 8 = 0 then (forWords body (buf.length / 8) buf h).1
        else body (forWords body (buf.length / 8) buf h).1 (uint64At tail) := by
  induction hn : buf.length / 8 generalizing buf h with
  | zero =>
    have hlt : buf.length < 8 := by omega
    refine ⟨buf, rfl, (Nat.mod_eq_of_lt hlt).symm, ?_⟩
    rw [Nat.mod_eq_of_lt hlt, forWords, forPasses]
    split_ifs with hzero
    · rw [List.length_eq_zero_iff.mp hzero, untilEmpty_nil]
      rfl
    · have hbuf : buf ≠ [] := fun hnil => hzero (by rw [hnil, List.length_nil])
      rw [untilEmpty_cons (by norm_num) hbuf, List.take_of_length_le hlt.le,
        List.drop_of_length_le hlt.le, untilEmpty_nil]
      rfl
  | succ n ih =>
    have hbuf : buf ≠ [] := fun hnil => by simp [hnil] at hn
    obtain ⟨tail, htail, hlen, hfold⟩ := ih (buf.drop 8) (body h (uint64At buf))
      (by rw [List.length_drop]; omega)
    have hmod : (buf.drop 8).length % 8 = buf.length % 8 := by
      rw [List.length_drop]
      omega
    refine ⟨tail, htail, hlen.trans hmod, ?_⟩
    rw [untilEmpty_cons (by norm_num) hbuf, List.map_cons, List.foldl_cons, uint64At_take, hfold,
      hmod]
    rfl

end

/-! What each of them notices -/

theorem fasthashMix_injective : Function.Injective fasthashMix :=
  (fromAbove_ushiftRight (by norm_num)).injective.comp
    ((mul_injective (by decide)).comp (fromAbove_ushiftRight (by norm_num)).injective)

theorem fasthash64_notices (seed : BitVec 64) : Notices 8 (fasthash64 · seed) := by
  have hstep : KeepsApart (· ≠ ·) fun h v : BitVec 64 =>
      (h ^^^ fasthashMix v) * 0x880355f21e6d1965 := by
    refine .of_injective (fun h => ?_) fun v => ?_
    · have hxor : Function.Injective fun x : BitVec 64 => h ^^^ x :=
        fun _ _ => (BitVec.xor_right_inj h).mp
      exact (mul_injective (by decide)).comp (hxor.comp fasthashMix_injective)
    · exact (mul_injective (by decide)).comp fun _ _ => (BitVec.xor_left_inj _).mp
  refine hstep.notices (by norm_num) (fun len => seed ^^^ BitVec.ofNat 64 len * 0x880355f21e6d1965)
    (fun _ _ => uint64At_inj) (fun _ => fasthashMix) (fun _ _ _ => fasthashMix_injective.ne)
    fun buf => ?_
  obtain ⟨tail, htail, hlen, hfold⟩ := foldl_words
    (fun h v : BitVec 64 => (h ^^^ fasthashMix v) * 0x880355f21e6d1965) buf
    (seed ^^^ BitVec.ofNat 64 buf.length * 0x880355f21e6d1965)
  rw [hfold, fasthash64]
  dsimp only
  rw [htail, ← hlen, fallThrough_xor (by omega)]

theorem mx3Mix_injective : Function.Injective mx3Mix := by
  have hmul : Function.Injective fun x : BitVec 64 => x * mx3C := mul_injective (by decide)
  exact (fromAbove_ushiftRight (by norm_num)).injective.comp (hmul.comp
    ((fromAbove_ushiftRight (by norm_num)).injective.comp (hmul.comp
      ((fromAbove_ushiftRight (by norm_num)).injective.comp hmul))))

theorem mx3Hash_notices (seed : BitVec 64) : Notices 8 (mx3Hash · seed) := by
  have hmul : Function.Injective fun x : BitVec 64 => x * mx3C := mul_injective (by decide)
  have hshift : Function.Injective fun x : BitVec 64 => x ^^^ ((x >>> 57) ^^^ (x >>> 33)) :=
    ((fromAbove_ushiftRight (by norm_num)).xor (fromAbove_ushiftRight (by norm_num))).injective
  have hstep : KeepsApart (· ≠ ·) mixStream := by
    refine .of_injective (fun h => ?_) fun x => ?_
    · have hadd : Function.Injective fun x : BitVec 64 => h + x :=
        fun _ _ => (BitVec.add_right_inj h).mp
      exact hmul.comp (hadd.comp (hmul.comp (hshift.comp hmul)))
    · exact hmul.comp fun _ _ => (BitVec.add_left_inj _).mp
  refine hstep.notices (by norm_num) (fun len => seed ^^^ BitVec.ofNat 64 len)
    (fun _ _ => uint64At_inj) (fun _ => mx3Mix) (fun _ _ _ => mx3Mix_injective.ne) fun buf => ?_
  obtain ⟨tail, htail, hlen, hfold⟩ :=
    foldl_words mixStream buf (seed ^^^ BitVec.ofNat 64 buf.length)
  rw [hfold, mx3Hash]
  dsimp only
  rw [← forWords_add, show 4 * (buf.length / 32) + buf.length % 32 / 8 = buf.length / 8 by omega,
    htail, ← hlen, fallThrough_or (by omega)]

/-! The four lanes of `seahash` take the words in turn -/

theorem diffuse_injective : Function.Injective diffuse := by
  have hmul : Function.Injective fun x : BitVec 64 => x * 0x6eed0e9da4d94a4f :=
    mul_injective (by decide)
  have habove : FromAbove fun x : BitVec 64 => (x >>> 32) >>> (x >>> 60) := by
    intro x y i h
    simp only [BitVec.ushiftRight_eq', BitVec.getLsbD_ushiftRight]
    rcases lt_or_ge i 32 with hlt | hge
    · have hshift : x >>> 60 = y >>> 60 := by
        apply BitVec.eq_of_getLsbD_eq
        intro j _
        rw [BitVec.getLsbD_ushiftRight, BitVec.getLsbD_ushiftRight]
        exact h _ (by omega)
      rw [hshift]
      exact h _ (by omega)
    · rw [BitVec.getLsbD_of_ge x _ (by omega), BitVec.getLsbD_of_ge y _ (by omega)]
  exact hmul.comp (habove.injective.comp hmul)

/-- A word goes into the lane whose turn it is. -/
def laneStep (mixing : BitVec 64 → BitVec 64) :
    Fin 4 × SeaLanes → BitVec 64 → Fin 4 × SeaLanes
  | (0, s), v => (1, { s with a := mixing (s.a ^^^ v) })
  | (1, s), v => (2, { s with b := mixing (s.b ^^^ v) })
  | (2, s), v => (3, { s with c := mixing (s.c ^^^ v) })
  | (3, s), v => (0, { s with d := mixing (s.d ^^^ v) })

/-- One lane is different, and only one. -/
def OneLaneApart (p q : Fin 4 × SeaLanes) : Prop :=
  p.1 = q.1 ∧
    (p.2.a ≠ q.2.a ∧ p.2.b = q.2.b ∧ p.2.c = q.2.c ∧ p.2.d = q.2.d ∨
      p.2.a = q.2.a ∧ p.2.b ≠ q.2.b ∧ p.2.c = q.2.c ∧ p.2.d = q.2.d ∨
      p.2.a = q.2.a ∧ p.2.b = q.2.b ∧ p.2.c ≠ q.2.c ∧ p.2.d = q.2.d ∨
      p.2.a = q.2.a ∧ p.2.b = q.2.b ∧ p.2.c = q.2.c ∧ p.2.d ≠ q.2.d)

theorem laneStep_keepsApart {mixing : BitVec 64 → BitVec 64} (h : Function.Injective mixing) :
    KeepsApart OneLaneApart (laneStep mixing) where
  word {p x y} hxy := by
    obtain ⟨lane, s⟩ := p
    fin_cases lane <;> simp [laneStep, OneLaneApart, h.eq_iff, hxy]
  state {p q} x hpq := by
    obtain ⟨lane, s⟩ := p
    obtain ⟨lane', t⟩ := q
    obtain ⟨rfl, hapart⟩ := hpq
    fin_cases lane <;> simpa [laneStep, OneLaneApart, h.eq_iff] using hapart

theorem foldl_seaBody (n : ℕ) (p : List UInt8) (s : SeaLanes) (hn : 32 * n ≤ p.length) :
    ((untilEmpty 8 p).map uint64At).foldl (laneStep diffuse) (0, s) =
        ((untilEmpty 8 (forPasses 32 seaBody n p s).2).map uint64At).foldl (laneStep diffuse)
          (0, (forPasses 32 seaBody n p s).1) ∧
      (forPasses 32 seaBody n p s).2.length = p.length - 32 * n := by
  induction n generalizing p s with
  | zero => exact ⟨rfl, rfl⟩
  | succ n ih =>
    obtain ⟨hfold, hlen⟩ := ih (p.drop 32) (seaBody p s) (by rw [List.length_drop]; omega)
    refine ⟨?_, by rw [forPasses, hlen, List.length_drop]; omega⟩
    rw [forPasses, ← hfold, ← List.drop_zero (l := p), untilEmpty_drop (by norm_num) (by omega),
      untilEmpty_drop (by norm_num) (by omega), untilEmpty_drop (by norm_num) (by omega),
      untilEmpty_drop (by norm_num) (by omega)]
    simp only [List.map_cons, List.foldl_cons, uint64At_take, laneStep, List.drop_zero, seaBody]

theorem foldl_seaTail {p : List UInt8} (s : SeaLanes) (hlt : p.length < 32) :
    (((untilEmpty 8 p).map uint64At).foldl (laneStep diffuse) (0, s)).2 =
      seaTail p.length p s := by
  have hcons (k : ℕ) (hk : k < p.length) :
      untilEmpty 8 (p.drop k) = (p.drop k).take 8 :: untilEmpty 8 (p.drop (k + 8)) :=
    untilEmpty_drop (by norm_num) hk
  have hnil (k : ℕ) (hk : p.length ≤ k) : untilEmpty 8 (p.drop k) = [] := by
    rw [List.drop_of_length_le hk, untilEmpty_nil]
  have hzero : untilEmpty 8 p = untilEmpty 8 (p.drop 0) := by rw [List.drop_zero]
  unfold seaTail
  split_ifs with h25 h17 h9 h1
  · rw [hzero, hcons 0 (by omega), hcons 8 (by omega), hcons 16 (by omega), hcons 24 (by omega),
      hnil 32 (by omega)]
    simp only [List.map_cons, List.map_nil, List.foldl_cons, List.foldl_nil, uint64At_take,
      laneStep, List.drop_zero]
  · rw [hzero, hcons 0 (by omega), hcons 8 (by omega), hcons 16 (by omega), hnil 24 (by omega)]
    simp only [List.map_cons, List.map_nil, List.foldl_cons, List.foldl_nil, uint64At_take,
      laneStep, List.drop_zero]
  · rw [hzero, hcons 0 (by omega), hcons 8 (by omega), hnil 16 (by omega)]
    simp only [List.map_cons, List.map_nil, List.foldl_cons, List.foldl_nil, uint64At_take,
      laneStep, List.drop_zero]
  · rw [hzero, hcons 0 (by omega), hnil 8 (by omega)]
    simp only [List.map_cons, List.map_nil, List.foldl_cons, List.foldl_nil, uint64At_take,
      laneStep, List.drop_zero]
  · rw [hzero, hnil 0 (by omega)]
    rfl

theorem getLsbD_seaSwap64 (x : BitVec 64) {i : ℕ} (hi : i < 64) :
    (seaSwap64 x).getLsbD (8 * (7 - i / 8) + i % 8) = x.getLsbD i := by
  interval_cases i <;> simp [seaSwap64]

theorem seaSwap64_injective : Function.Injective seaSwap64 := by
  intro x y h
  apply BitVec.eq_of_getLsbD_eq
  intro i hi
  rw [← getLsbD_seaSwap64 x hi, ← getLsbD_seaSwap64 y hi, h]

theorem seahash_notices (seed : BitVec 64) : Notices 8 (seahash · seed) := by
  let init : SeaLanes :=
    { a := 0x16f11fe89b0d677c ^^^ seed
      b := 0xb480a793d8e6c86c
      c := 0x6fe2e5aaf078ebc9
      d := 0x14f994a4c5259381 }
  refine (laneStep_keepsApart diffuse_injective).notices (by norm_num) (fun _ => (0, init))
    (fun _ _ => uint64At_inj) (fun len p => seaSwap64 (diffuse
      (p.2.a ^^^ p.2.b ^^^ (p.2.c ^^^ p.2.d) ^^^ BitVec.ofNat 64 len)))
    (fun len p q hpq => seaSwap64_injective.ne (diffuse_injective.ne ?_)) fun buf => ?_
  · obtain ⟨-, hpq⟩ := hpq
    rcases hpq with ⟨h, hb, hc, hd⟩ | ⟨ha, h, hc, hd⟩ | ⟨ha, hb, h, hd⟩ | ⟨ha, hb, hc, h⟩
    · simpa [hb, hc, hd] using h
    · simpa [ha, hc, hd] using h
    · simpa [ha, hb, hd] using h
    · simpa [ha, hb, hc] using h
  · obtain ⟨hfold, hlen⟩ := foldl_seaBody (buf.length / 32) buf init (by omega)
    have hmod : (forPasses 32 seaBody (buf.length / 32) buf init).2.length = buf.length % 32 := by
      omega
    rw [hfold, foldl_seaTail _ (by omega), hmod, seahash]

/-! Those that go byte by byte -/

theorem notices_bytes {w : ℕ} {step : BitVec w → UInt8 → BitVec w}
    (h : KeepsApart (· ≠ ·) step) (init : BitVec w) :
    Notices 1 fun data : List UInt8 => data.foldl step init := by
  intro before x y after _ hlen hle _ heq
  match x, y with
  | [], y => exact (List.length_eq_zero_iff.mp hlen.symm).symm
  | [a], [b] =>
    by_contra hne
    have hab : a ≠ b := fun hab => hne (by rw [hab])
    exact h.foldl_word init before after hab (by simpa using heq)

theorem setWidth_injective {w : ℕ} (hw : 8 ≤ w) :
    Function.Injective fun x : UInt8 => x.toBitVec.setWidth w := by
  intro x y h
  apply UInt8.toBitVec_inj.mp
  apply BitVec.eq_of_getLsbD_eq
  intro i hi
  have hbit := congrArg (BitVec.getLsbD · i) h
  simpa [BitVec.getLsbD_setWidth, show i < w by omega] using hbit

theorem fnv1_notices {w : ℕ} (hw : 8 ≤ w) {prime : BitVec w} (hprime : Odd prime.toNat)
    (hash : BitVec w) : Notices 1 (fnv1 prime · hash) := by
  apply notices_bytes
  refine .of_injective (fun hash => ?_) fun x => ?_
  · have hxor : Function.Injective fun x : BitVec w => hash * prime ^^^ x :=
      fun _ _ => (BitVec.xor_right_inj _).mp
    exact hxor.comp (setWidth_injective hw)
  · have hxor : Function.Injective fun hash : BitVec w => hash ^^^ x.toBitVec.setWidth w :=
      fun _ _ => (BitVec.xor_left_inj _).mp
    exact hxor.comp (mul_injective hprime)

theorem fnv1a_notices {w : ℕ} (hw : 8 ≤ w) {prime : BitVec w} (hprime : Odd prime.toNat)
    (hash : BitVec w) : Notices 1 (fnv1a prime · hash) := by
  apply notices_bytes
  refine .of_injective (fun hash => ?_) fun x => ?_
  · have hxor : Function.Injective fun x : BitVec w => x ^^^ hash :=
      fun _ _ => (BitVec.xor_left_inj _).mp
    exact (mul_injective hprime).comp (hxor.comp (setWidth_injective hw))
  · exact (mul_injective hprime).comp fun _ _ => (BitVec.xor_right_inj _).mp

/-! The two that go by a table: no two entries have the byte in common that is
moved out last, so that byte gives the index away -/

theorem crc64Tab_low :
    (crc64Tab.map fun entry => entry.setWidth 8).Nodup ∧ crc64Tab.length = 256 := by
  decide +kernel

theorem crc32Tab_high :
    (crc32Tab.map fun entry : BitVec 32 => (entry >>> 24).setWidth 8).Nodup ∧
      crc32Tab.length = 256 := by
  decide +kernel

theorem getD_inj {α β : Type*} {tab : List α} {key : α → β} (hnodup : (tab.map key).Nodup)
    {i j : ℕ} (hi : i < tab.length) (hj : j < tab.length) (d : α)
    (h : key (tab.getD i d) = key (tab.getD j d)) : i = j := by
  have hmap : (tab.map key).get ⟨i, by simpa⟩ = (tab.map key).get ⟨j, by simpa⟩ := by
    simpa [List.getD_eq_getElem?_getD, hi, hj] using h
  exact Fin.mk.inj (List.nodup_iff_injective_get.mp hnodup hmap)

theorem and_ff_lt (x : BitVec 32) : (x &&& 0xff).toNat < 256 := by
  rw [BitVec.toNat_and]
  exact Nat.and_lt_two_pow x.toNat (n := 8) (by decide)

theorem getLsbD_and_ff (x : BitVec 32) {i : ℕ} (hi : i < 8) :
    (x &&& 0xff).getLsbD i = x.getLsbD i := by
  have hmask : (0xff : BitVec 32).getLsbD i = true := by
    interval_cases i <;> rfl
  rw [BitVec.getLsbD_and, hmask, Bool.and_true]

/-- Registers that agree on the low byte after a pass took one entry. -/
theorem crc64Step_entry {s t : BitVec 64} {x y : UInt8}
    (h : ∀ i < 8, (crc64Step s x).getLsbD i = (crc64Step t y).getLsbD i) :
    crc64Index s x = crc64Index t y := by
  obtain ⟨hnodup, hlen⟩ := crc64Tab_low
  apply BitVec.eq_of_toNat_eq
  apply getD_inj hnodup (hlen ▸ and_ff_lt _) (hlen ▸ and_ff_lt _) 0
  apply BitVec.eq_of_getLsbD_eq
  intro i hi
  have hbit := h i hi
  simp only [crc64Step, BitVec.getLsbD_xor, BitVec.getLsbD_shiftLeft, hi] at hbit
  simpa [hi] using hbit

/-- So their top bytes differ as the bytes they took. -/
theorem crc64Step_top {s t : BitVec 64} {x y : UInt8}
    (h : ∀ i < 8, (crc64Step s x).getLsbD i = (crc64Step t y).getLsbD i) {i : ℕ} (hi : i < 8) :
    (s.getLsbD (56 + i) ^^ x.toBitVec.getLsbD i) =
      (t.getLsbD (56 + i) ^^ y.toBitVec.getLsbD i) := by
  have hbit := congrArg (BitVec.getLsbD · i) (crc64Step_entry h)
  simpa only [crc64Index, getLsbD_and_ff _ hi, BitVec.getLsbD_xor, BitVec.getLsbD_setWidth,
    BitVec.getLsbD_ushiftRight, show i < 32 by omega, decide_true, Bool.true_and] using hbit

/-- The rest of the register has moved up by a byte. -/
theorem crc64Step_rest {s t : BitVec 64} {x y : UInt8}
    (h : ∀ i < 8, (crc64Step s x).getLsbD i = (crc64Step t y).getLsbD i) {i : ℕ} (hi : i < 56)
    (hbit : (crc64Step s x).getLsbD (i + 8) = (crc64Step t y).getLsbD (i + 8)) :
    s.getLsbD i = t.getLsbD i := by
  have hentry := crc64Step_entry h
  simp only [crc64Step, hentry, BitVec.getLsbD_xor, BitVec.getLsbD_shiftLeft,
    show i + 8 < 64 by omega, show ¬ i + 8 < 8 by omega, Nat.add_sub_cancel, decide_true,
    decide_false, Bool.true_and, Bool.not_false] at hbit
  exact Bool.xor_right_inj.mp hbit

theorem crc64_shiftRegister :
    ShiftRegister 8 (fun k s t => ∀ i < 8 * k, s.getLsbD i = t.getLsbD i) crc64Step where
  full := ⟨fun h => BitVec.eq_of_getLsbD_eq h, fun h i _ => by rw [h]⟩
  mono hkl h i hi := h i (by omega)
  back {k s t x y} hk h i hi :=
    crc64Step_rest (fun j hj => h j (by omega)) (by omega) (h (i + 8) (by omega))
  state {s t} x h := by
    apply BitVec.eq_of_getLsbD_eq
    intro i hi
    rcases lt_or_ge i 56 with hlt | hge
    · exact crc64Step_rest (fun j _ => by rw [h]) hlt (by rw [h])
    · obtain ⟨j, rfl⟩ := Nat.exists_eq_add_of_le hge
      exact Bool.xor_left_inj.mp (crc64Step_top (fun j _ => by rw [h]) (by omega))
  byte {s x y} h := by
    apply UInt8.toBitVec_inj.mp
    apply BitVec.eq_of_getLsbD_eq
    intro i hi
    exact Bool.xor_right_inj.mp (crc64Step_top (fun j hj => h j (by omega)) hi)

theorem crc64_notices (seed : BitVec 64) : Notices 8 (crc64 seed) :=
  crc64_shiftRegister.notices seed

/-- Registers that agree on the high byte after a pass took one entry. -/
theorem crc32Step_entry {s t : BitVec 32} {x y : UInt8}
    (h : ∀ i < 8, (crc32Step s x).getLsbD (24 + i) = (crc32Step t y).getLsbD (24 + i)) :
    (s ^^^ x.toBitVec.setWidth 32) &&& 0xff = (t ^^^ y.toBitVec.setWidth 32) &&& 0xff := by
  obtain ⟨hnodup, hlen⟩ := crc32Tab_high
  apply BitVec.eq_of_toNat_eq
  apply getD_inj hnodup (hlen ▸ and_ff_lt _) (hlen ▸ and_ff_lt _) 0
  apply BitVec.eq_of_getLsbD_eq
  intro i hi
  have hbit := h i hi
  simp only [crc32Step, BitVec.getLsbD_xor, BitVec.getLsbD_ushiftRight] at hbit
  rw [BitVec.getLsbD_of_ge s _ (by omega), BitVec.getLsbD_of_ge t _ (by omega)] at hbit
  simpa only [BitVec.getLsbD_setWidth, BitVec.getLsbD_ushiftRight, hi, decide_true, Bool.true_and,
    Bool.xor_false] using hbit

/-- So their low bytes differ as the bytes they took. -/
theorem crc32Step_low {s t : BitVec 32} {x y : UInt8}
    (h : ∀ i < 8, (crc32Step s x).getLsbD (24 + i) = (crc32Step t y).getLsbD (24 + i)) {i : ℕ}
    (hi : i < 8) :
    (s.getLsbD i ^^ x.toBitVec.getLsbD i) = (t.getLsbD i ^^ y.toBitVec.getLsbD i) := by
  have hbit := congrArg (BitVec.getLsbD · i) (crc32Step_entry h)
  simpa only [getLsbD_and_ff _ hi, BitVec.getLsbD_xor, BitVec.getLsbD_setWidth,
    show i < 32 by omega, decide_true, Bool.true_and] using hbit

/-- The rest of the register has moved down by a byte. -/
theorem crc32Step_rest {s t : BitVec 32} {x y : UInt8}
    (h : ∀ i < 8, (crc32Step s x).getLsbD (24 + i) = (crc32Step t y).getLsbD (24 + i)) {i : ℕ}
    (hbit : (crc32Step s x).getLsbD i = (crc32Step t y).getLsbD i) :
    s.getLsbD (8 + i) = t.getLsbD (8 + i) := by
  have hentry := crc32Step_entry h
  simp only [crc32Step, hentry, BitVec.getLsbD_xor, BitVec.getLsbD_ushiftRight] at hbit
  exact Bool.xor_right_inj.mp hbit

/-- The high byte, with its bits counted from the top. -/
theorem high_byte {s t : BitVec 32} (h : ∀ i < 8, s.getLsbD (31 - i) = t.getLsbD (31 - i)) :
    ∀ i < 8, s.getLsbD (24 + i) = t.getLsbD (24 + i) := by
  intro i hi
  have hbit := h (7 - i) (by omega)
  rwa [show 31 - (7 - i) = 24 + i by omega] at hbit

theorem crc32_shiftRegister :
    ShiftRegister 4 (fun k s t => ∀ i < 8 * k, s.getLsbD (31 - i) = t.getLsbD (31 - i))
      crc32Step where
  full {s t} := by
    refine ⟨fun h => BitVec.eq_of_getLsbD_eq fun i hi => ?_, fun h i _ => by rw [h]⟩
    have hbit := h (31 - i) (by omega)
    rwa [show 31 - (31 - i) = i by omega] at hbit
  mono hkl h i hi := h i (by omega)
  back {k s t x y} hk h i hi := by
    have hbit := h (i + 8) (by omega)
    rw [show 31 - (i + 8) = 23 - i by omega] at hbit
    have hrest := crc32Step_rest (high_byte fun j hj => h j (by omega)) hbit
    rwa [show 8 + (23 - i) = 31 - i by omega] at hrest
  state {s t} x h := by
    apply BitVec.eq_of_getLsbD_eq
    intro i _
    rcases lt_or_ge i 8 with hlt | hge
    · exact Bool.xor_left_inj.mp (crc32Step_low (fun j _ => by rw [h]) hlt)
    · obtain ⟨j, rfl⟩ := Nat.exists_eq_add_of_le hge
      exact crc32Step_rest (fun j _ => by rw [h]) (by rw [h])
  byte {s x y} h := by
    apply UInt8.toBitVec_inj.mp
    apply BitVec.eq_of_getLsbD_eq
    intro i hi
    exact Bool.xor_right_inj.mp (crc32Step_low (high_byte fun j hj => h j (by omega)) hi)

theorem crc32_notices (seed : BitVec 32) : Notices 4 (crc32 seed) :=
  crc32_shiftRegister.notices seed

end Mdencode.Cpp
