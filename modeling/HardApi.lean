import HardApi.Paillier.Correctness
import HardApi.Paillier.Balance
import HardApi.Paillier.Decode
import HardApi.Paillier.Vector
import HardApi.Paillier.Residues
import HardApi.Paillier.Pipeline
import HardApi.Pynq.Montgomery
import HardApi.Pynq.Sizes
import HardApi.Pynq.Independence
import HardApi.Pynq.Ownership
import HardApi.Pynq.Operand
import HardApi.Pynq.Agreement
import HardApi.Pynq.Handshake
import HardApi.Pynq.LoadBitstream
import HardApi.Pynq.Interrupt
import HardApi.Pynq.Dma
