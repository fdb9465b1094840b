import Paro.Core.LittleEndian

/-!
# WAL checksum

Model of `compute_wal_checksum` (crates/journal/src/wal/checksum.rs): each aligned 8-byte word is
multiplied by a constant, a trailing partial word goes through a MurmurHash-style mix, and the
results are xored together.
-/
namespace Paro.L1

abbrev Bytes := List UInt8

def hashMultiplier : UInt64 := 0xbf58476d1ce4e5b9
def murmurM : UInt64 := 0xc6a4a7935bd1e995
def murmurSeed : UInt64 := 0xe17a1465
def murmurR : UInt64 := 47

def wordAt (data : Bytes) (i : Nat) : UInt64 := UInt64.ofNat (ofLeBytes ((data.drop (8 * i)).take 8))

/-- checksum.rs:17-20 -/
def checksumU64 (x : UInt64) : UInt64 := x * hashMultiplier

/-- One whole word of the mix. checksum.rs:33-40 -/
def mixWord (h k : UInt64) : UInt64 :=
  let k := k * murmurM
  let k := k ^^^ (k >>> murmurR)
  let k := k * murmurM
  (h ^^^ k) * murmurM

/-- The bytes of a partial word, highest first; nothing for an empty one.
checksum.rs:44-96 -/
def mixTail (h : UInt64) (tail : Bytes) : UInt64 :=
  if tail = [] then h
  else tail.zipIdx.foldr (fun (b, i) h => h ^^^ (b.toUInt64 <<< UInt64.ofNat (8 * i))) h * murmurM

/-- checksum.rs:98-101 -/
def mixFinish (h : UInt64) : UInt64 :=
  let h := h ^^^ (h >>> murmurR)
  let h := h * murmurM
  h ^^^ (h >>> murmurR)

/-- checksum.rs:25-102 -/
def checksumRemainder (data : Bytes) : UInt64 :=
  let h := murmurSeed ^^^ (UInt64.ofNat data.length * murmurM)
  let nBlocks := data.length / 8
  let h := (List.range nBlocks).foldl (fun h i => mixWord h (wordAt data i)) h
  mixFinish (mixTail h (data.drop (8 * nBlocks)))

/-- checksum.rs:114-132 -/
def computeWalChecksum (buffer : Bytes) : UInt64 :=
  let nChunks := buffer.length / 8
  let result := (List.range nChunks).foldl (fun r i => r ^^^ checksumU64 (wordAt buffer i)) 5381
  if 8 * nChunks < buffer.length then result ^^^ checksumRemainder (buffer.drop (8 * nChunks)) else result

end Paro.L1
