import Disassembly.Proofs.LineTexts
import Disassembly.Proofs.RegionMaps

/-!
# File offsets

The file offset that a listing shows beside an address is where the byte at that address comes from.
Two look-ups have to agree for this. The listing picks the file region of a section once, at the
start of the request; the image picks a segment for every single address, and its segments are cut
off where the file ends.

* `Image.memory_ofFile` — the byte at an address comes from the first window that places a byte
  there;
* `Layout.find?_windows` — from the start of a request on, that window is the one of the file region
  behind the request, as far as the file goes;
* `Region.toNat_sub_bias` — subtracting the bias gives the offset into the file.
-/

namespace Disassembly

/-! ## Windows -/

namespace Window

/-- Where in the file the byte for an address of the window stands. -/
def offsetOf (window : Window) (a : UInt32) : Nat :=
  window.fileOffset.toNat + (a.toNat - window.start.toNat)

/-- Whether the window places a byte of the file at an address. -/
def places (window : Window) (file : Array UInt8) (a : UInt32) : Bool :=
  decide (window.start.toNat ≤ a.toNat) && decide (a.toNat < window.stop.toNat) &&
    decide (window.offsetOf a < file.size)

theorem places_iff (window : Window) (file : Array UInt8) (a : UInt32) :
    window.places file a = true ↔ window.start.toNat ≤ a.toNat ∧ a.toNat < window.stop.toNat ∧
      window.offsetOf a < file.size := by
  rw [places, Bool.and_eq_true, Bool.and_eq_true, decide_eq_true_iff, decide_eq_true_iff,
    decide_eq_true_iff, and_assoc]

theorem size_bytes (window : Window) (file : Array UInt8) :
    (window.bytes file).size =
      min (window.fileOffset.toNat + (window.stop.toNat - window.start.toNat)) file.size
        - window.fileOffset.toNat := by
  rw [bytes, Array.size_extract]

/-- A segment never reaches beyond its window, so its end does not wrap around. -/
theorem toNat_stop_ofWindow (window : Window) (file : Array UInt8)
    (hne : (window.bytes file).size ≠ 0) :
    (Segment.ofWindow file window).stop.toNat =
      window.start.toNat + (window.bytes file).size := by
  have hsize := size_bytes window file
  have hlt := window.stop.toNat_lt
  show (window.start + UInt32.ofNat (window.bytes file).size).toNat = _
  rw [UInt32.toNat_add, UInt32.toNat_ofNat', Nat.mod_eq_of_lt (a := (window.bytes file).size),
    Nat.mod_eq_of_lt] <;> omega

/-- The segment of a window holds the addresses where the window places a byte. -/
theorem contains_ofWindow (window : Window) (file : Array UInt8) (a : UInt32) :
    (!(window.bytes file).isEmpty) = true ∧ (Segment.ofWindow file window).contains a = true ↔
      window.places file a = true := by
  have hsize := size_bytes window file
  have hstart : (Segment.ofWindow file window).base = window.start := rfl
  rw [Segment.contains, Bool.and_eq_true, decide_eq_true_iff, decide_eq_true_iff, hstart,
    UInt32.le_iff_toNat_le, UInt32.lt_iff_toNat_lt, Bool.not_eq_true',
    Array.isEmpty_eq_false_iff, ne_eq, ← Array.size_eq_zero_iff, places_iff, offsetOf]
  constructor
  · rintro ⟨hne, hle, hlt⟩
    rw [toNat_stop_ofWindow window file hne] at hlt
    omega
  · rintro ⟨hle, hlt, hfile⟩
    have hne : (window.bytes file).size ≠ 0 := by omega
    rw [toNat_stop_ofWindow window file hne]
    omega

theorem byte?_ofWindow {window : Window} {file : Array UInt8} {a : UInt32}
    (h : window.places file a = true) :
    (Segment.ofWindow file window).byte? a = file[window.offsetOf a]? := by
  obtain ⟨hle, hlt, hfile⟩ := (places_iff window file a).mp h
  have hsub : (a - window.start).toNat = a.toNat - window.start.toNat :=
    UInt32.toNat_sub_of_le _ _ (UInt32.le_iff_toNat_le.mpr hle)
  show (window.bytes file)[(a - window.start).toNat]? = _
  rw [offsetOf] at hfile ⊢
  rw [hsub, bytes, Array.getElem?_extract_of_lt (by omega), Array.getElem?_eq_getElem]

end Window

/-- The byte at an address comes from the first window that places one there. -/
theorem Image.memory_ofFile {windows : List Window} (hne : windows ≠ []) (file : Array UInt8)
    (a : UInt32) :
    (ofFile file windows).memory a =
      (windows.find? (·.places file a)).bind fun window => file[window.offsetOf a]? := by
  rw [ofFile, if_neg (by simpa using hne), memory, List.find?_map, List.find?_filter]
  simp only [Function.comp_apply, Window.contains_ofWindow, Bool.decide_eq_true]
  cases hfind : windows.find? (·.places file a) with
  | none => rfl
  | some window =>
      exact Window.byte?_ofWindow (List.find?_some (p := (Window.places · file a)) hfind)

/-! ## The file region behind a request -/

/-- The window of a file region. -/
def Region.window (region : Region) : Window :=
  { start := region.start, stop := region.stop, fileOffset := region.fileOffset }

theorem Layout.windows_eq (layout : Layout) :
    layout.windows = layout.files.regions.map Region.window := rfl

/-- From the start of a request on, the bytes come from the file region behind it, as far as the
file goes. -/
theorem Layout.find?_windows {layout : Layout} (hfiles : layout.files.Ascending)
    {request region : Region} (hbacking : layout.backing? request = some region)
    {file : Array UInt8} {a : UInt32} (hstart : request.start ≤ a) (hstop : a < region.stop)
    (hfile : region.window.offsetOf a < file.size) :
    layout.windows.find? (·.places file a) = some region.window := by
  obtain ⟨hcontains, front, back, hregions, hfront⟩ := RegionMap.find?_split hfiles hbacking
  have hplaces : region.window.places file a = true := by
    rw [Region.contains_iff] at hcontains
    rw [UInt32.le_iff_toNat_le] at hstart
    exact (region.window.places_iff file a).mpr
      ⟨Nat.le_trans hcontains.1 hstart, UInt32.lt_iff_toNat_lt.mp hstop, hfile⟩
  -- a region in front has ended before the request starts, whatever its segment is cut down to
  have hmiss : (front.map Region.window).find? (·.places file a) = none := by
    rw [List.find?_eq_none]
    intro window hwindow hother
    obtain ⟨r, hr, rfl⟩ := List.mem_map.mp hwindow
    have hlt : a.toNat < r.stop.toNat := ((r.window.places_iff file a).mp hother).2.1
    have hended := UInt32.le_iff_toNat_le.mp (UInt32.le_trans (hfront r hr) hstart)
    omega
  rw [windows_eq, hregions, List.map_append, List.map_cons, List.find?_append, hmiss,
    Option.none_or, List.find?_cons_of_pos (p := (Window.places · file a)) hplaces]

/-- Subtracting the bias of a region gives the offset of an address in the file. -/
theorem Region.toNat_sub_bias {region : Region} {a : UInt32} (hle : region.start ≤ a)
    (hlt : region.window.offsetOf a < 0x100000000) :
    (a - region.bias).toNat = region.window.offsetOf a := by
  have hsub := UInt32.toNat_sub_of_le _ _ hle
  have hbias : a - region.bias = a - region.start + region.fileOffset := by
    rw [bias]
    grind
  rw [hbias, UInt32.toNat_add, hsub]
  show _ = region.fileOffset.toNat + (a.toNat - region.start.toNat)
  rw [Nat.add_comm]
  exact Nat.mod_eq_of_lt hlt

/-- **File offsets.** Whatever file regions were declared, in whatever order, and however they
overlap: from the start of a request on, and as far as the file region behind it and the file go,
the byte in memory is the one at the file offset that the listing shows. -/
theorem memory_eq_at_shown_offset (file : Array UInt8) (hsize : file.size ≤ 0x100000000)
    (declared : List Region) (layout : Layout) (hfiles : layout.files = .ofList declared)
    (request region : Region) (hbacking : layout.backing? request = some region) (a : UInt32)
    (hstart : request.start ≤ a) (hstop : a < region.stop)
    (hfile : region.fileOffset.toNat + (a.toNat - region.start.toNat) < file.size) :
    (∃ h : (a - region.bias).toNat < file.size,
      (Image.ofFile file layout.windows).memory a = some file[(a - region.bias).toNat]) ∧
    (a - region.bias).toNat = region.fileOffset.toNat + (a.toNat - region.start.toNat) ∧
    addressColumn region.bias a = Text.hexPadded 8 a.toNat ++
      if (a - region.bias).toNat = a.toNat then " "
      else " (" ++ Text.hexPadded 8 (a - region.bias).toNat ++ ") " := by
  have hascending : layout.files.Ascending := hfiles ▸ RegionMap.ofList_ascending declared
  have hfind := Layout.find?_windows hascending hbacking hstart hstop hfile
  have hne : layout.windows ≠ [] := by
    intro hnil
    rw [hnil] at hfind
    cases hfind
  have hle : region.start ≤ a := by
    have hcontains := (RegionMap.find?_split hascending hbacking).1
    rw [Region.contains_iff] at hcontains
    exact UInt32.le_trans (UInt32.le_iff_toNat_le.mpr hcontains.1) hstart
  have hoffset := Region.toNat_sub_bias hle (Nat.lt_of_lt_of_le hfile hsize)
  have hbound : (a - region.bias).toNat < file.size := by
    rw [hoffset]
    exact hfile
  refine ⟨⟨hbound, ?_⟩, hoffset, addressColumn_eq region.bias a⟩
  rw [Image.memory_ofFile hne, hfind, Option.bind_some, ← hoffset]
  exact Array.getElem?_eq_getElem hbound

/-- The second of two overlapping file regions lies behind the request, and the first one is cut
off by the end of the file. -/
theorem memory_eq_at_shown_offset_overlap :
    let file : Array UInt8 := #[0x10, 0x11, 0x12, 0x13]
    let layout : Layout :=
      { files := .ofList [{ start := 0x102, stop := 0x110, fileOffset := 1 },
          { start := 0x100, stop := 0x103, fileOffset := 3 }] }
    let region : Region := { start := 0x102, stop := 0x110, fileOffset := 1 }
    (file.size ≤ 0x100000000 ∧ layout.backing? { start := 0x103, stop := 0x106 } = some region) ∧
      (Image.ofFile file layout.windows).memory 0x104 = some 0x13 ∧
      addressColumn region.bias 0x104 = "00000104 (00000003) " := by
  intro file layout region
  have hsize : file.size ≤ 0x100000000 := by decide
  have hbacking : layout.backing? { start := 0x103, stop := 0x106 } = some region := by decide
  obtain ⟨⟨_, hmemory⟩, _, hcolumn⟩ := memory_eq_at_shown_offset file hsize _ layout rfl
    { start := 0x103, stop := 0x106 } region hbacking 0x104 (by decide) (by decide) (by decide)
  refine ⟨⟨hsize, hbacking⟩, ?_, ?_⟩
  · have hoffset : (0x104 - region.bias).toNat = 3 := by decide
    rw [hmemory]
    simp only [hoffset]
    rfl
  · rw [hcolumn]
    decide

end Disassembly
