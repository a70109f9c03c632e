import TapeLang.Error

/-!
# Mapped code
-/

namespace TapeLang

/-- Code as it is mapped to be executed. An empty routine cannot be mapped. -/
structure Image where
  bytes : Array UInt8
  bytes_nonempty : bytes.size ≠ 0

/-- Maps code. -/
def Image.ofCode (code : Array UInt8) : Except Error Image :=
  if h : code.size = 0 then .error (.executableMemory "cannot map an empty routine")
  else .ok ⟨code, h⟩

end TapeLang
