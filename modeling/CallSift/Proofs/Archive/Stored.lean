import CallSift.Archive.Gzip
import CallSift.Archive.Tar

/-!
# Data that is only stored

A compressed file may store its content as it is, in one block, and a tar file stores
the contents of its members. So what is read from them stands in them.

* `decompress_stored`: the content of a compressed file with one stored block.
* `field_ofList`: a field of a header.
* `membersFrom_early` and `membersFrom_end`: a member of a tar file, and its end.
-/
namespace CallSift

/-! ## Parts of bytes -/

theorem extract_ofList (bytes : List UInt8) (start stop : Nat) :
    (ByteArray.mk bytes.toArray).extract start stop =
      ⟨((bytes.drop start).take (stop - start)).toArray⟩ := by
  apply ByteArray.ext
  simp [ByteArray.data_extract]

theorem extract_append {before bytes after : List UInt8} {start stop : Nat}
    (hbefore : before.length = start) (hbytes : bytes.length = stop - start) :
    (ByteArray.mk (before ++ bytes ++ after).toArray).extract start stop = ⟨bytes.toArray⟩ := by
  rw [extract_ofList, List.append_assoc, List.drop_left' hbefore, List.take_left' hbytes]

/-! ## A stored block -/

section
variable {data : ByteArray} {start length complement : Nat}
  (hlast : Deflate.bits data (8 * start) 1 = .ok 1)
  (hkind : Deflate.bits data (8 * start + 1) 2 = .ok 0)
  (hlength : Deflate.bits data (8 * (start + 1)) 16 = .ok length)
  (hcomplement : Deflate.bits data (8 * (start + 1) + 16) 16 = .ok complement)
  (hsum : length + complement + 1 = UInt16.size) (hfits : start + 5 + length ≤ data.size)
include hlast hkind hlength hcomplement hsum hfits

/-- A last block of stored bytes, announced at the beginning of a byte. -/
theorem inflate_stored : Deflate.inflate data start =
    ⟨data.extract (start + 5) (start + 5 + length), 8 * (start + 5 + length), none⟩ := by
  have hbyte : (8 * start + 3 + 7) / 8 = start + 1 := by omega
  have hstored : Deflate.stored data .empty (8 * start + 3) =
      ⟨data.extract (start + 5) (start + 5 + length), 8 * (start + 5 + length), none⟩ := by
    unfold Deflate.stored
    simp only [hbyte, hlength, hcomplement]
    rw [if_neg (not_not_intro hsum), if_neg (Nat.not_lt.mpr hfits), ByteArray.empty_append]
  have hblock : Deflate.block data .empty 0 (8 * start + 3) =
      Deflate.stored data .empty (8 * start + 3) := rfl
  unfold Deflate.inflate Deflate.blocks
  simp only [hlast, hkind, hblock, hstored, true_or, if_true]

theorem decompress_stored (hheader : Gzip.header? data = some start) :
    Gzip.decompress data =
      ⟨data.extract (start + 5) (start + 5 + length),
        Gzip.trailerFault data (data.extract (start + 5) (start + 5 + length))
          (start + 5 + length)⟩ := by
  have hstored := inflate_stored hlast hkind hlength hcomplement hsum hfits
  have hbyte : (8 * (start + 5 + length) + 7) / 8 = start + 5 + length := by omega
  unfold Gzip.decompress
  simp only [hheader, hstored, hbyte]

end

/-! ## Members -/

namespace Tar

theorem field_ofList (bytes : List UInt8) (start length : Nat) :
    (Header.mk ⟨bytes.toArray⟩).field start length = (bytes.drop start).take length := by
  rw [Header.field, extract_ofList]
  simp

theorem isEnd_ofList (bytes : List UInt8) :
    (Header.mk ⟨bytes.toArray⟩).isEnd = bytes.all (· = 0) := by
  simp [Header.isEnd]

theorem checksum_ofList (bytes : List UInt8) :
    (Header.mk ⟨bytes.toArray⟩).checksum =
      (bytes.take 148 ++ (bytes.drop 156).take 356).foldl (fun sum byte => sum + byte.toNat)
        (8 * ' '.toNat) := by
  rw [Header.checksum, field_ofList, field_ofList, List.drop_zero]

theorem memberType_zero {header : Header} (h : header.field 156 1 = [0]) :
    header.memberType = .file := by
  unfold Header.memberType
  rw [h]
  rfl

/-- A header in a format before the standard one, which knows no type for directories. -/
structure Header.IsEarly (header : Header) (name : List UInt8) (mode size : Nat) : Prop where
  more : header.isEnd = false
  sum : header.octal? 148 8 = some header.checksum
  size : header.size? = some size
  memberType : header.memberType = .file
  early : header.isStandard = false
  mode : header.mode? = some mode
  named : header.name = name

/-- A slash at the end of a name is what makes a directory then. -/
def earlyRole (name : List UInt8) : Role :=
  if name.getLast? = some Bytes.slash then .directory false else .file

variable {stream : Stream} {position : Nat} {header : Header}

theorem header?_end (hblock : stream.block? position blockSize = .ok (some header.block))
    (hend : header.isEnd = true) (description : Description) :
    header? stream description position = .ok none := by
  unfold header?
  rw [hblock]
  simp only [bind, Except.bind, hend]
  rfl

theorem membersFrom_end (hblock : stream.block? position blockSize = .ok (some header.block))
    (hend : header.isEnd = true) (fuel : Nat) :
    membersFrom stream (fuel + 1) .empty position = ⟨[], none⟩ := by
  unfold membersFrom
  simp only [header?_end hblock hend, if_true]

variable {name : List UInt8} {mode size : Nat}

/-- A member is read with its content. -/
theorem membersFrom_early (h : header.IsEarly name mode size)
    (hblock : stream.block? position blockSize = .ok (some header.block))
    (hfits : behind (position + blockSize) size < UInt64.size) (fuel : Nat) :
    membersFrom stream (fuel + 1) .empty position =
      let content := stream.available (position + blockSize) size
      let rest := membersFrom stream fuel .empty (behind (position + blockSize) size)
      ⟨⟨⟨⟨name⟩⟩, earlyRole name, some mode, content, content.size = size⟩ ::
        rest.members, rest.fault⟩ := by
  have hsizeOf : Description.sizeOf? .empty header = some size := by
    rw [Description.sizeOf?, h.size, h.memberType]
    rfl
  have hheader : header? stream .empty position = .ok (some (header, size)) := by
    unfold header?
    rw [hblock]
    simp only [bind, Except.bind, h.more, h.sum, hsizeOf]
    simp [Nat.not_le.mpr hfits]
    rfl
  have hrole : ∀ target, role header name target = earlyRole name := by
    intro target
    simp [role, earlyRole, h.memberType, h.early]
  have hdescribes : describes header = false := by
    simp [describes, h.memberType, MemberType.isDescription]
  have hbody : Body.ofHeader? stream header (position + blockSize) size =
      .ok (.plain stream (position + blockSize) size) := by
    simp [Body.ofHeader?, h.memberType]
  have hname : Description.nameOf .empty header = name := by
    simp [Description.nameOf, Description.lines, Description.empty, property, h.named]
  rw [membersFrom]
  simp [hheader, hbody, hdescribes, hname, hrole, h.mode, Body.plain]

end Tar
end CallSift
