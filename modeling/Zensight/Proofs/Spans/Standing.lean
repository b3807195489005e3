import Zensight.Proofs.Spans.Rows
import Zensight.Proofs.Tiling

/-!
# Tokens as they stand in a script

What the bytes of a script say of its tokens (`Token.scan_tiled`) is all that spans rest on.
Tokens stand in order, and one that is not illegal has its literal's length, so it has ended where
the next one starts.
-/

namespace Zensight

theorem Token.place_le_stop (t : Token) : t.place ≤ t.stop := by
  rw [Place.le_iff]
  exact .inr ⟨rfl, Nat.le_add_right _ _⟩

namespace Token

namespace Tile.Fits

variable {s : Text} {x y : Tile}

theorem bytes_eq (x : Tile) (s : Text) :
    s.extract x.start x.stop = (s.drop x.start).take (x.stop - x.start) := by
  simp

/-- A tile that is not illegal is as wide as its literal. -/
theorem stop_eq (h : x.Fits s) (hok : x.token.kind ≠ .illegal) :
    x.token.stop = .ofOffset s x.stop := by
  have hlt := h.start_lt
  have hquiet := h.quiet
  have hliteral := h.literal_eq hok
  rw [bytes_eq] at hquiet hliteral
  rw [show x.stop = x.start + (x.stop - x.start) by omega, Place.ofOffset_add,
    Place.after_of_onLine _ hquiet, hliteral, ← h.place_eq]
  rfl

theorem place_before_stop (h : x.Fits s) (hok : x.token.kind ≠ .illegal) :
    x.token.place.isBefore x.token.stop = true := by
  have hlt := h.start_lt
  have hle := h.stop_le
  have hend : endOffset s ≤ s.length := List.findIdx_le_length
  rw [h.stop_eq hok, h.place_eq, show x.stop = x.start + (x.stop - x.start) by omega,
    Place.ofOffset_add]
  refine Place.isBefore_after ?_ _
  rw [← List.length_pos_iff, List.length_take, List.length_drop]
  omega

theorem precedes (hx : x.Fits s) (hy : y.Fits s) (h : x.stop ≤ y.start) :
    x.token.Precedes y.token where
  starts := by
    have hlt := hx.start_lt
    rw [hx.place_eq, hy.place_eq]
    exact Place.ofOffset_le (by omega)
  ends hok := by
    rw [hx.stop_eq hok, hy.place_eq]
    exact Place.ofOffset_le h

end Tile.Fits

theorem Tiled.laid {s : Text} {i : Nat} {tiles : List Tile} (h : Tiled s i tiles) :
    Laid (tiles.map (·.token)) := by
  have hfits := h.fits
  refine ⟨List.pairwise_map.mpr ?_, fun t ht hok => ?_⟩
  · refine h.pairwise.imp_of_mem fun {x y} hx hy hle => ?_
    exact (hfits x hx).precedes (hfits y hy) hle
  · obtain ⟨x, hx, rfl⟩ := List.mem_map.mp ht
    exact (hfits x hx).place_before_stop hok

/-- The tokens of a script with the one that ends it, as they stand. -/
structure Stands (body : List Token) (eof : Token) : Prop where
  laid : Laid body
  start_le : Place.start ≤ eof.place
  le_eof : ∀ t ∈ body, Place.start ≤ t.place ∧ t.place ≤ eof.place ∧
    (t.kind ≠ .illegal → t.stop ≤ eof.place)

theorem scan_stands {s : Text} {body : List Token} {eof : Token}
    (h : scan s = body ++ [eof]) : Stands body eof := by
  obtain ⟨tiles, htiles, hscan⟩ := scan_tiled s
  obtain ⟨rfl, heof⟩ := List.append_inj' (h.symm.trans hscan) rfl
  obtain rfl : eof = _ := by simpa using heof
  have hstart (i : Nat) : Place.start ≤ .ofOffset s i := by
    rw [← Place.ofOffset_zero s]
    exact Place.ofOffset_le (Nat.zero_le i)
  refine ⟨htiles.laid, hstart _, fun t ht => ?_⟩
  obtain ⟨x, hx, rfl⟩ := List.mem_map.mp ht
  have hfits := htiles.fits x hx
  have hlt := hfits.start_lt
  have hle := hfits.stop_le
  rw [hfits.place_eq]
  refine ⟨hstart _, Place.ofOffset_le (by omega), fun hok => ?_⟩
  rw [hfits.stop_eq hok]
  exact Place.ofOffset_le hle

end Token

end Zensight
