import VersionedMap.Bisect

namespace VersionedMap.CodeRanges

/-- Whether a code point lies in one of the ranges: only the first one that does not end below it can
hold it. -/
def covers (ranges : Array (Nat × Nat)) (code : Nat) : Bool :=
  ranges[Bisect.partitionPoint (fun r => r.2 < code) ranges 0]?.any fun r => r.1 ≤ code

end VersionedMap.CodeRanges
