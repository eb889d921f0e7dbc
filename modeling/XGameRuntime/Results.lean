import Mathlib.Data.Nat.Notation

/-! # Result codes

`src/results.rs`. An `HRESULT` is its 32 bits read as a natural number.
-/

namespace XGameRuntime
set_option autoImplicit false

abbrev HRESULT := ℕ

def S_OK : HRESULT := 0
def E_PENDING : HRESULT := 0x8000000A
def E_ABORT : HRESULT := 0x80004004
def E_POINTER : HRESULT := 0x80004003
def E_INVALIDARG : HRESULT := 0x80070057
def E_NOT_SUFFICIENT_BUFFER : HRESULT := 0x8007007A
def E_ILLEGAL_METHOD_CALL : HRESULT := 0x8000000E
def E_ACCESSDENIED : HRESULT := 0x80070005
def E_FAIL : HRESULT := 0x80004005
def E_NOTIMPL : HRESULT := 0x80004001

end XGameRuntime
