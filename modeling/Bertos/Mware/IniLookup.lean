import Bertos.Mware.IniFrame
import Bertos.Mware.IniSpec

/-!
# A lookup sees the content of a file only

Files that answer reads and seeks alike answer every lookup alike (`iniGetString_sim`). So a lookup is a function of the
content, `iniValue`, which looks up in a file that is nothing but its content (`iniGetString_value`); where the lines of
the content are readable, it is a `lookup` in them (`iniValue_lookup`).
-/

namespace Bertos

/-! ## The value of a key in a content -/

def contentFile : KFile FileSt where
  read f n := (f.rest.take n, f.advance (f.rest.take n).length)
  write f bs := (min bs.length f.room, f.store bs)
  seekPos f := f.pos
  seek f p := { f with pos := p }
  size f := f.data.length

/-- What a lookup answers in a file with this content. -/
def iniValue (data name key defaultValue : List UInt8) (size : ℕ) (stack : ℕ → UInt8) : Bool × List UInt8 :=
  (iniGetString contentFile name key defaultValue size stack ⟨data, 0⟩).1

theorem iniGetString_value {W : Type} {fd : KFile W} {st : W → FileSt}
    (h : ReadSim fd contentFile fun w f => st w = f) (hs : ∀ w p, (st (fd.seek w p)) = ⟨(st w).data, p⟩)
    (name key defaultValue : List UInt8) (size : ℕ) (stack : ℕ → UInt8) (w : W) :
    (iniGetString fd name key defaultValue size stack w).1 = iniValue (st w).data name key defaultValue size stack := by
  have hstart : st (fd.seek w 0) = contentFile.seek ⟨(st w).data, 0⟩ 0 := hs w 0
  have hsim := iniGetString_sim h hstart name key defaultValue size stack
  unfold iniValue
  exact hsim.1

theorem contentFile_fixed : FixedFile contentFile id fun _ => () where
  read := fun _ _ => ⟨rfl, rfl, rfl⟩
  write := fun _ _ => ⟨rfl, rfl, rfl⟩
  seekPos := fun _ => rfl
  seek := fun _ _ => ⟨rfl, rfl⟩
  size := fun _ => rfl

theorem iniValue_lookup {data name key : List UInt8} (hn : IsName name) (hk : IsName key) {ls : List RawLine}
    (hr : RawLines data ls) (hls : ∀ l ∈ ls, Tame l.text) (heq : ∀ l ∈ ls, textKey l.text = key → chEq ∈ l.text)
    (defaultValue : List UInt8) (size : ℕ) (stack : ℕ → UInt8) :
    iniValue data name key defaultValue size stack = getResult defaultValue size (lookup name key (fullLines ls)) := by
  obtain ⟨w', he, -, -⟩ := iniGetString_spec contentFile_fixed (w := ⟨data, 0⟩) hn hk hr hls heq defaultValue size stack
  unfold iniValue
  rw [he]

/-! ## The first line that has a key -/

theorem rawLines_first (f : List UInt8) :
    ∃ n ls, RawLines f (⟨(f.takeWhile fun c => !isEol c).take (iniMaxLineLen - 1), n⟩ :: ls) := by
  have htext := getsText_text (iniMaxLineLen - 1) f
  generalize hg : getsText (iniMaxLineLen - 1) f = r at htext
  obtain ⟨t, n, e⟩ := r
  obtain rfl : t = _ := htext
  cases e with
  | true => exact ⟨n, [], .eof hg⟩
  | false =>
    obtain ⟨ls, hls⟩ := RawLines.exists (f.drop n)
    exact ⟨n, ls, .more hg hls⟩

/-- Where the lines up to the one that has the key are readable, its value is found, whatever follows. -/
theorem iniValue_found {data name key : List UInt8} (hn : IsName name) {A M B : List RawLine} {s l : RawLine}
    (hr : RawLines data (A ++ s :: (M ++ l :: B))) (hA : ∀ a ∈ A, Tame a.text ∧ a.text ≠ header name)
    (hs : Tame s.text ∧ s.text = header name) (hM : ∀ m ∈ M, Passed key m.text) (ht : Tame l.text)
    (hk : textKey l.text = key) (heq : chEq ∈ l.text) (defaultValue : List UInt8) (size : ℕ) (stack : ℕ → UInt8) :
    iniValue data name key defaultValue size stack = (true, (textValue l.text).take (size - 1)) := by
  obtain ⟨line1, f1, hsec, -, -, hT⟩ := findSection_spec contentFile_fixed hn.sectionName.nonul hr (w := ⟨data, 0⟩)
    stack
  have hsstr : s.str = s.text := hs.1.cstr_eq
  rw [sectionSearch_append hn.sectionName _ A _ _ hA, sectionSearch, hsstr,
    if_pos ((hs.1.isHeader_iff hn.sectionName).mpr hs.2)] at hsec hT
  obtain ⟨line2, f2, hkey, -, -, hold⟩ := findKey_spec contentFile_fixed key (hT _ rfl) line1
  have hlstr : l.str = l.text := ht.cstr_eq
  have hne : orEmpty (M ++ l :: B) = M ++ l :: B := by simp [orEmpty]
  rw [hne, keySearch_append _ M _ _ hM, keySearch, hlstr, if_pos hk] at hkey hold
  have hfs : findSection contentFile name stack (contentFile.seek ⟨data, 0⟩ 0) = (true, line1, f1) := hsec
  have hholds : Holds line2 l.text := hlstr ▸ hold l rfl
  simp only [iniValue, iniGetString, hfs, hkey, Option.isSome_some, hholds.getValue heq]

end Bertos
