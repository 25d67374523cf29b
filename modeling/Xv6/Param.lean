/-!
# Constants

`kernel/param.h` and the sizes of `kernel/fs.h`.
-/

namespace Xv6

def NPROC : Nat := 64
def NOFILE : Nat := 16
def NFILE : Nat := 100
def NINODE : Nat := 50
def ROOTDEV : Nat := 1
def NDEV : Nat := 10
def MAXOPBLOCKS : Nat := 10
def LOGSIZE : Nat := MAXOPBLOCKS * 3
def NBUF : Nat := MAXOPBLOCKS * 3
def MAXPATH : Nat := 128
def BSIZE : Nat := 1024

end Xv6
