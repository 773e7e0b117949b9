import XamlAssist.Proofs.Document.Scanning
import XamlAssist.Proofs.Extension.Scanning

/-!
# Going on where a scan has stopped

A caret moves through a text, and a scan is taken further with it. However often it stops on the
way, also at offsets inside a character, it ends as the scan from the start does; and although each
step has the whole text at hand, nothing behind the place has had a part in it.

Main statements: `Document.Scan.advances_eq_upTo_of_same_bytes` and
`Extension.Scan.advances_eq_upTo_of_cut`.
-/

namespace XamlAssist

open Text

namespace Document.Scan

/-- A scan that goes on to one offset after the other ends as the scan up to the largest of them
does, at the last place before it, and tells there what a reading tells. Any other text with the
same bytes up to this place, where no character of it is cut in two, is scanned to the same
state. -/
theorem advances_eq_upTo_of_same_bytes (text : List Char) (offsets : List Nat) :
    let s := offsets.foldl (fun s offset => s.advance text offset) ({} : Scan)
    let last := offsets.foldl max 0
    let place := floorOffset text last
    s = upTo text last ∧ s.pos = place ∧ s.snapshot = (Reading.upTo text last).snapshot ∧
      ∀ other, isPlace other place = true → (utf8 other).take place = (utf8 text).take place →
        upTo other place = s := by
  intro s last place
  have hs : s = upTo text last := scanner.foldl_advance rfl text offsets
  have hplace : isPlace text place = true := isPlace_floorOffset text last
  refine ⟨hs, ?_, ?_, fun other hother hbytes => ?_⟩
  · rw [hs]
    exact scanner.pos_advance rfl text last
  · rw [hs, snapshot_upTo]
  · have hsame : upTo other place = upTo text place :=
      looksBack_scanner.advance_eq isBehindOpening_start rfl hplace hother hbytes
    rw [hs, hsame]
    exact scanner.advance_floorOffset text last

/-- The text `<!-é`, scanned up to the middle of its last character, is scanned as the beginning of
a comment is. -/
theorem advances_eq_upTo_of_same_bytes_halfComment :
    isPlace ['<', '!', '-', '-'] 3 = true ∧
      upTo ['<', '!', '-', '-'] 3 =
        [2, 4, 1].foldl (fun s offset => s.advance ['<', '!', '-', 'é'] offset) {} :=
  ⟨by decide, (advances_eq_upTo_of_same_bytes ['<', '!', '-', 'é'] [2, 4, 1]).2.2.2
    ['<', '!', '-', '-'] (by decide) (by decide)⟩

end Document.Scan

namespace Extension.Scan

/-- A scan that goes on to one offset after the other ends as the scan up to the largest of them
does, as the reading up to there does, and as the scan of the whole text does once it is cut
there. -/
theorem advances_eq_upTo_of_cut (text : List Char) (offsets : List Nat) :
    let s := offsets.foldl (fun s offset => advance s text offset) ({} : Cursor)
    let last := offsets.foldl max 0
    let cut := takeBytes text (floorOffset text last)
    s = upTo text last ∧ s.pos = floorOffset text last ∧
      s = (Reading.upTo text last).toCursor ∧ s = upTo cut (byteLength cut) := by
  intro s last cut
  have hs : s = upTo text last := scanner.foldl_advance rfl text offsets
  have hlength : byteLength cut = floorOffset text last := by
    rw [byteLength_takeBytes, floorOffset_of_isPlace (isPlace_floorOffset text last)]
  refine ⟨hs, ?_, ?_, ?_⟩
  · rw [hs]
    exact scanner.pos_advance rfl text last
  · rw [hs, upTo_eq_reading]
  · have hplace : isPlace cut (floorOffset text last) = true :=
      isPlace_iff.mpr ⟨cut, [], (List.append_nil cut).symm, hlength⟩
    have hbytes : (utf8 cut).take (floorOffset text last) =
        (utf8 text).take (floorOffset text last) := by
      obtain ⟨rest, hrest⟩ := takeBytes_isPrefix text (floorOffset text last)
      have htext := take_utf8_append cut rest
      rw [hrest, hlength] at htext
      rw [htext, ← hlength, ← length_utf8, List.take_length]
    have hsame : upTo cut (floorOffset text last) = upTo text (floorOffset text last) :=
      looksBack_scanner.advance_eq trivial rfl (isPlace_floorOffset text last) hplace hbytes
    rw [hs, hlength, hsame]
    exact (scanner.advance_floorOffset text last).symm

end Extension.Scan

end XamlAssist
